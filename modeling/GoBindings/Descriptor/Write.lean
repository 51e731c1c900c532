import GoBindings.Descriptor.Basic
import GoBindings.Descriptor.RawField

/-!
# Writing descriptors

Each descriptor is written as its fields in ascending order of their numbers. What is absent is
not written.
-/

namespace GoBindings.Descriptor

open RawField

def NamePart.write (o : NamePart) : List RawField :=
  putText 1 (some o.namePart) ++
  putBool 2 (some o.isExtension)

def UninterpretedOption.write (o : UninterpretedOption) : List RawField :=
  putMessages 2 (o.name.map NamePart.write) ++
  putText 3 o.identifierValue ++
  putUint64 4 o.positiveIntValue ++
  putInt64 5 o.negativeIntValue ++
  putFixed64 6 o.doubleValue ++
  putBytes 7 o.stringValue ++
  putText 8 o.aggregateValue

def putUninterpreted (os : List UninterpretedOption) : List RawField :=
  putMessages 999 (os.map UninterpretedOption.write)

def FileOptions.write (o : FileOptions) : List RawField :=
  putText 1 o.javaPackage ++
  putText 8 o.javaOuterClassname ++
  putInt32 9 o.optimizeFor ++
  putBool 10 o.javaMultipleFiles ++
  putText 11 o.goPackage ++
  putBool 16 o.ccGenericServices ++
  putBool 17 o.javaGenericServices ++
  putBool 18 o.pyGenericServices ++
  putBool 20 o.javaGenerateEqualsAndHash ++
  putBool 23 o.deprecated ++
  putBool 27 o.javaStringCheckUtf8 ++
  putBool 31 o.ccEnableArenas ++
  putText 36 o.objcClassPrefix ++
  putText 37 o.csharpNamespace ++
  putText 39 o.swiftPrefix ++
  putText 40 o.phpClassPrefix ++
  putText 41 o.phpNamespace ++
  putBool 42 o.phpGenericServices ++
  putText 44 o.phpMetadataNamespace ++
  putText 45 o.rubyPackage ++
  putUninterpreted o.uninterpreted

def MessageOptions.write (o : MessageOptions) : List RawField :=
  putBool 1 o.messageSetWireFormat ++
  putBool 2 o.noStandardDescriptorAccessor ++
  putBool 3 o.deprecated ++
  putBool 7 o.mapEntry ++
  putUninterpreted o.uninterpreted

def FieldOptions.write (o : FieldOptions) : List RawField :=
  putInt32 1 o.ctype ++
  putBool 2 o.packed ++
  putBool 3 o.deprecated ++
  putBool 5 o.lazy ++
  putInt32 6 o.jstype ++
  putBool 10 o.weak ++
  putUninterpreted o.uninterpreted

def OneofOptions.write (o : OneofOptions) : List RawField :=
  putUninterpreted o.uninterpreted

def EnumOptions.write (o : EnumOptions) : List RawField :=
  putBool 2 o.allowAlias ++
  putBool 3 o.deprecated ++
  putUninterpreted o.uninterpreted

def EnumValueOptions.write (o : EnumValueOptions) : List RawField :=
  putBool 1 o.deprecated ++
  putUninterpreted o.uninterpreted

def ServiceOptions.write (o : ServiceOptions) : List RawField :=
  putBool 33 o.deprecated ++
  putUninterpreted o.uninterpreted

def MethodOptions.write (o : MethodOptions) : List RawField :=
  putBool 33 o.deprecated ++
  putInt32 34 o.idempotencyLevel ++
  putUninterpreted o.uninterpreted

def ExtensionRangeOptions.write (o : ExtensionRangeOptions) : List RawField :=
  putUninterpreted o.uninterpreted

def ExtensionRange.write (o : ExtensionRange) : List RawField :=
  putInt32 1 o.start ++
  putInt32 2 o.stop ++
  putMessage 3 (o.options.map ExtensionRangeOptions.write)

def ReservedRange.write (o : ReservedRange) : List RawField :=
  putInt32 1 o.start ++
  putInt32 2 o.stop

def Field.write (f : Field) : List RawField :=
  putText 1 f.name ++
  putText 2 f.extendee ++
  putInt32 3 f.number ++
  putInt32 4 f.label ++
  putInt32 5 f.kind ++
  putText 6 f.typeName ++
  putText 7 f.defaultValue ++
  putMessage 8 (f.options.map FieldOptions.write) ++
  putInt32 9 f.oneofIndex ++
  putText 10 f.jsonName ++
  putBool 17 f.proto3Optional

def Oneof.write (o : Oneof) : List RawField :=
  putText 1 o.name ++
  putMessage 2 (o.options.map OneofOptions.write)

def EnumValue.write (v : EnumValue) : List RawField :=
  putText 1 v.name ++
  putInt32 2 v.number ++
  putMessage 3 (v.options.map EnumValueOptions.write)

def Enum.write (e : Enum) : List RawField :=
  putText 1 e.name ++
  putMessages 2 (e.values.map EnumValue.write) ++
  putMessage 3 (e.options.map EnumOptions.write) ++
  putMessages 4 (e.reservedRanges.map ReservedRange.write) ++
  putTexts 5 e.reservedNames

def Method.write (o : Method) : List RawField :=
  putText 1 o.name ++
  putText 2 o.inputType ++
  putText 3 o.outputType ++
  putMessage 4 (o.options.map MethodOptions.write) ++
  putBool 5 o.clientStreaming ++
  putBool 6 o.serverStreaming

def Service.write (o : Service) : List RawField :=
  putText 1 o.name ++
  putMessages 2 (o.methods.map Method.write) ++
  putMessage 3 (o.options.map ServiceOptions.write)

mutual

def Message.write : Message → List RawField
  | { name, fields, nested, enums, extensionRanges, extensions,
      options, oneofs, reservedRanges, reservedNames } =>
    putText 1 name ++
    putMessages 2 (fields.map Field.write) ++
    putMessages 3 (Message.writeAll nested) ++
    putMessages 4 (enums.map Enum.write) ++
    putMessages 5 (extensionRanges.map ExtensionRange.write) ++
    putMessages 6 (extensions.map Field.write) ++
    putMessage 7 (options.map MessageOptions.write) ++
    putMessages 8 (oneofs.map Oneof.write) ++
    putMessages 9 (reservedRanges.map ReservedRange.write) ++
    putTexts 10 reservedNames

def Message.writeAll : List Message → List (List RawField)
  | [] => []
  | m :: ms => Message.write m :: Message.writeAll ms

end

def Location.write (o : Location) : List RawField :=
  putPackedInt32s 1 o.path ++
  putPackedInt32s 2 o.span ++
  putText 3 o.leadingComments ++
  putText 4 o.trailingComments ++
  putTexts 6 o.detachedComments

def SourceInfo.write (o : SourceInfo) : List RawField :=
  putMessages 1 (o.locations.map Location.write)

def File.write (f : File) : List RawField :=
  putText 1 f.name ++
  putText 2 f.package ++
  putTexts 3 f.dependencies ++
  putMessages 4 (f.messages.map Message.write) ++
  putMessages 5 (f.enums.map Enum.write) ++
  putMessages 6 (f.services.map Service.write) ++
  putMessages 7 (f.extensions.map Field.write) ++
  putMessage 8 (f.options.map FileOptions.write) ++
  putMessage 9 (f.sourceInfo.map SourceInfo.write) ++
  putInt32s 10 f.publicDependencies ++
  putInt32s 11 f.weakDependencies ++
  putText 12 f.syntaxName

def File.encode (f : File) : List UInt8 := render f.write

end GoBindings.Descriptor
