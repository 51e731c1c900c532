import GoBindings.Bind.Part
import GoBindings.Field.Mapping
import GoBindings.Field.Tag

/-!
# Extensions

An extension is described to the runtime by a variable.
-/

namespace GoBindings.Binder

open Schema Go

variable (b : Binder)

/-- The type that an extension of the old message sets extends. -/
def messageSetType : String := "proto2_bridge.MessageSet"

/-- Whether an extension stands for the message it is declared in. -/
def isMessageSetExtension (x : ExtensionNode) (extended : TypeExpr) : Bool :=
  extended.text = messageSetType && x.typeName.getLast? = some "message_set_extension"

def registerExtension (x : ExtensionNode) : Simple :=
  .eval (.call (.qualified b.proto "RegisterExtension") [.name x.varName])

def registerMessageSet (type : TypeExpr) (number : Int32) (name : String) : Simple :=
  .eval (.call (.qualified b.proto "RegisterMessageSetType")
    [.convert type .nil, .int number.toInt, .quoted name])

def extensionDecl (x : ExtensionNode) (extended type : TypeExpr) (name : String) (tag : Tag) :
    Decl :=
  .table x.varName true (.qualified b.proto "ExtensionDesc")
    [.keyed (.name "ExtendedType") (.convert (.pointer extended) .nil),
     .keyed (.name "ExtensionType") (.convert type .nil),
     .keyed (.name "Field") (.int x.field.numberValue.toInt),
     .keyed (.name "Name") (.quoted name),
     .keyed (.name "Tag") (.literal tag.quoted),
     .keyed (.name "Filename") (.quoted b.node.name)]

/-- The extended message, also if it is reached through a re-export. -/
def extendedMessage (x : ExtensionNode) (extendee : Object) : Except Error MessageId :=
  match b.schema.underlying extendee with
  | .message id => .ok id
  | _ => .error (.extendsNonMessage x.varName (x.field.extendee.getD ""))

def extensionPart (id : ExtensionId) : Except Error Part := do
  let x := b.schema.extension id
  let extendee ← b.setup.resolve (x.field.extendee.getD "") b.file
  let message ← b.extendedMessage x extendee
  let extended ← b.setup.goName extendee
  let fieldType ← b.setup.fieldType b.file x.parent x.field
  let tag ← b.setup.fieldTag b.file message x.field fieldType.wire
  let messageSet := isMessageSetExtension x extended
  let scope := if messageSet then x.typeName.dropLast else x.typeName
  let name := inPackage b.node.package (Text.join "." scope)
  return {
    decls := [b.extensionDecl x extended fieldType.type name tag, .blank]
    uses := extended.packages ++ fieldType.package?.toList ++ [b.proto]
    inits := if messageSet then
      [b.registerMessageSet fieldType.type x.field.numberValue name] else []
    exports := [(.extension id, .value .var x.varName none)] }

end GoBindings.Binder
