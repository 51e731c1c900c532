/-!
# Descriptors

The declarations of schema files as a request carries them. A field that is absent differs from
one that is set to its default, because descriptors are written back as they came.
-/

namespace GoBindings.Descriptor

/-- One part of the name of an option; a part in parentheses names an extension. -/
structure NamePart where
  namePart : String := ""
  isExtension : Bool := false
  deriving Inhabited

/-- An option that the schema compiler did not resolve. -/
structure UninterpretedOption where
  name : List NamePart := []
  identifierValue : Option String := none
  positiveIntValue : Option UInt64 := none
  negativeIntValue : Option Int64 := none
  /-- The bits of a double. -/
  doubleValue : Option UInt64 := none
  stringValue : Option (List UInt8) := none
  aggregateValue : Option String := none
  deriving Inhabited

structure FileOptions where
  javaPackage : Option String := none
  javaOuterClassname : Option String := none
  optimizeFor : Option Int32 := none
  javaMultipleFiles : Option Bool := none
  goPackage : Option String := none
  ccGenericServices : Option Bool := none
  javaGenericServices : Option Bool := none
  pyGenericServices : Option Bool := none
  javaGenerateEqualsAndHash : Option Bool := none
  deprecated : Option Bool := none
  javaStringCheckUtf8 : Option Bool := none
  ccEnableArenas : Option Bool := none
  objcClassPrefix : Option String := none
  csharpNamespace : Option String := none
  swiftPrefix : Option String := none
  phpClassPrefix : Option String := none
  phpNamespace : Option String := none
  phpGenericServices : Option Bool := none
  phpMetadataNamespace : Option String := none
  rubyPackage : Option String := none
  uninterpreted : List UninterpretedOption := []
  deriving Inhabited

structure MessageOptions where
  messageSetWireFormat : Option Bool := none
  noStandardDescriptorAccessor : Option Bool := none
  deprecated : Option Bool := none
  mapEntry : Option Bool := none
  uninterpreted : List UninterpretedOption := []
  deriving Inhabited

structure FieldOptions where
  ctype : Option Int32 := none
  packed : Option Bool := none
  deprecated : Option Bool := none
  lazy : Option Bool := none
  jstype : Option Int32 := none
  weak : Option Bool := none
  uninterpreted : List UninterpretedOption := []
  deriving Inhabited

structure OneofOptions where
  uninterpreted : List UninterpretedOption := []
  deriving Inhabited

structure EnumOptions where
  allowAlias : Option Bool := none
  deprecated : Option Bool := none
  uninterpreted : List UninterpretedOption := []
  deriving Inhabited

structure EnumValueOptions where
  deprecated : Option Bool := none
  uninterpreted : List UninterpretedOption := []
  deriving Inhabited

structure ServiceOptions where
  deprecated : Option Bool := none
  uninterpreted : List UninterpretedOption := []
  deriving Inhabited

structure MethodOptions where
  deprecated : Option Bool := none
  idempotencyLevel : Option Int32 := none
  uninterpreted : List UninterpretedOption := []
  deriving Inhabited

structure ExtensionRangeOptions where
  uninterpreted : List UninterpretedOption := []
  deriving Inhabited

structure ExtensionRange where
  start : Option Int32 := none
  /-- The first number after the range. -/
  stop : Option Int32 := none
  options : Option ExtensionRangeOptions := none
  deriving Inhabited

structure ReservedRange where
  start : Option Int32 := none
  stop : Option Int32 := none
  deriving Inhabited

structure Field where
  name : Option String := none
  /-- The extended message, for an extension. -/
  extendee : Option String := none
  number : Option Int32 := none
  /-- 1 is optional, 2 is required, 3 is repeated. -/
  label : Option Int32 := none
  /-- A number from 1 to 18, see `FieldKind`. -/
  kind : Option Int32 := none
  typeName : Option String := none
  defaultValue : Option String := none
  options : Option FieldOptions := none
  oneofIndex : Option Int32 := none
  jsonName : Option String := none
  proto3Optional : Option Bool := none
  deriving Inhabited

structure Oneof where
  name : Option String := none
  options : Option OneofOptions := none
  deriving Inhabited

structure EnumValue where
  name : Option String := none
  number : Option Int32 := none
  options : Option EnumValueOptions := none
  deriving Inhabited

structure Enum where
  name : Option String := none
  values : List EnumValue := []
  options : Option EnumOptions := none
  reservedRanges : List ReservedRange := []
  reservedNames : List String := []
  deriving Inhabited

structure Method where
  name : Option String := none
  inputType : Option String := none
  outputType : Option String := none
  options : Option MethodOptions := none
  clientStreaming : Option Bool := none
  serverStreaming : Option Bool := none
  deriving Inhabited

structure Service where
  name : Option String := none
  methods : List Method := []
  options : Option ServiceOptions := none
  deriving Inhabited

structure Message where
  name : Option String := none
  fields : List Field := []
  nested : List Message := []
  enums : List Enum := []
  extensionRanges : List ExtensionRange := []
  extensions : List Field := []
  options : Option MessageOptions := none
  oneofs : List Oneof := []
  reservedRanges : List ReservedRange := []
  reservedNames : List String := []
  deriving Inhabited

/-- A place in the schema text: the path of the element it belongs to, and the comments there. -/
structure Location where
  path : List Int32 := []
  span : List Int32 := []
  leadingComments : Option String := none
  trailingComments : Option String := none
  detachedComments : List String := []
  deriving Inhabited

structure SourceInfo where
  locations : List Location := []
  deriving Inhabited

structure File where
  name : Option String := none
  package : Option String := none
  dependencies : List String := []
  messages : List Message := []
  enums : List Enum := []
  services : List Service := []
  extensions : List Field := []
  options : Option FileOptions := none
  sourceInfo : Option SourceInfo := none
  /-- Positions in `dependencies`. -/
  publicDependencies : List Int32 := []
  /-- Positions in `dependencies`. -/
  weakDependencies : List Int32 := []
  syntaxName : Option String := none
  deriving Inhabited

structure Version where
  major : Option Int32 := none
  minor : Option Int32 := none
  patch : Option Int32 := none
  suffix : Option String := none
  deriving Inhabited

/-- What a run is asked to do: the names of the files to generate, and all files they need. -/
structure Request where
  filesToGenerate : List String := []
  parameter : Option String := none
  compilerVersion : Option Version := none
  files : List File := []
  deriving Inhabited

end GoBindings.Descriptor
