import GoBindings.Descriptor.Basic
import GoBindings.Descriptor.RawField

/-!
# Reading descriptors

Each descriptor is read from the fields of its serialized form. `limit` is the number of levels
that submessages may still nest.
-/

namespace GoBindings.Descriptor

open RawField

variable (limit : Nat) (fs : List RawField)

def NamePart.read : Option NamePart := do
  checkUnknown limit [1, 2] fs
  return {
    namePart := (← text? 1 fs).getD ""
    isExtension := (← bool? 2 fs).getD false }

def UninterpretedOption.read : Option UninterpretedOption := do
  checkUnknown limit [2, 3, 4, 5, 6, 7, 8] fs
  return {
    name := ← listOf 2 (below limit NamePart.read) fs
    identifierValue := ← text? 3 fs
    positiveIntValue := ← uint64? 4 fs
    negativeIntValue := ← int64? 5 fs
    doubleValue := ← fixed64? 6 fs
    stringValue := ← bytes? 7 fs
    aggregateValue := ← text? 8 fs }

def readUninterpreted : Option (List UninterpretedOption) :=
  listOf 999 (below limit UninterpretedOption.read) fs

def FileOptions.read : Option FileOptions := do
  checkUnknown limit [1, 8, 9, 10, 11, 16, 17, 18, 20, 23, 27, 31, 36, 37, 39, 40, 41, 42,
    44, 45, 999] fs
  return {
    javaPackage := ← text? 1 fs
    javaOuterClassname := ← text? 8 fs
    optimizeFor := ← int32? 9 fs
    javaMultipleFiles := ← bool? 10 fs
    goPackage := ← text? 11 fs
    ccGenericServices := ← bool? 16 fs
    javaGenericServices := ← bool? 17 fs
    pyGenericServices := ← bool? 18 fs
    javaGenerateEqualsAndHash := ← bool? 20 fs
    deprecated := ← bool? 23 fs
    javaStringCheckUtf8 := ← bool? 27 fs
    ccEnableArenas := ← bool? 31 fs
    objcClassPrefix := ← text? 36 fs
    csharpNamespace := ← text? 37 fs
    swiftPrefix := ← text? 39 fs
    phpClassPrefix := ← text? 40 fs
    phpNamespace := ← text? 41 fs
    phpGenericServices := ← bool? 42 fs
    phpMetadataNamespace := ← text? 44 fs
    rubyPackage := ← text? 45 fs
    uninterpreted := ← readUninterpreted limit fs }

def MessageOptions.read : Option MessageOptions := do
  checkUnknown limit [1, 2, 3, 7, 999] fs
  return {
    messageSetWireFormat := ← bool? 1 fs
    noStandardDescriptorAccessor := ← bool? 2 fs
    deprecated := ← bool? 3 fs
    mapEntry := ← bool? 7 fs
    uninterpreted := ← readUninterpreted limit fs }

def FieldOptions.read : Option FieldOptions := do
  checkUnknown limit [1, 2, 3, 5, 6, 10, 999] fs
  return {
    ctype := ← int32? 1 fs
    packed := ← bool? 2 fs
    deprecated := ← bool? 3 fs
    lazy := ← bool? 5 fs
    jstype := ← int32? 6 fs
    weak := ← bool? 10 fs
    uninterpreted := ← readUninterpreted limit fs }

def OneofOptions.read : Option OneofOptions := do
  checkUnknown limit [999] fs
  return {
    uninterpreted := ← readUninterpreted limit fs }

def EnumOptions.read : Option EnumOptions := do
  checkUnknown limit [2, 3, 999] fs
  return {
    allowAlias := ← bool? 2 fs
    deprecated := ← bool? 3 fs
    uninterpreted := ← readUninterpreted limit fs }

def EnumValueOptions.read : Option EnumValueOptions := do
  checkUnknown limit [1, 999] fs
  return {
    deprecated := ← bool? 1 fs
    uninterpreted := ← readUninterpreted limit fs }

def ServiceOptions.read : Option ServiceOptions := do
  checkUnknown limit [33, 999] fs
  return {
    deprecated := ← bool? 33 fs
    uninterpreted := ← readUninterpreted limit fs }

def MethodOptions.read : Option MethodOptions := do
  checkUnknown limit [33, 34, 999] fs
  return {
    deprecated := ← bool? 33 fs
    idempotencyLevel := ← int32? 34 fs
    uninterpreted := ← readUninterpreted limit fs }

def ExtensionRangeOptions.read : Option ExtensionRangeOptions := do
  checkUnknown limit [999] fs
  return {
    uninterpreted := ← readUninterpreted limit fs }

def ExtensionRange.read : Option ExtensionRange := do
  checkUnknown limit [1, 2, 3] fs
  return {
    start := ← int32? 1 fs
    stop := ← int32? 2 fs
    options := ← one? 3 (below limit ExtensionRangeOptions.read) fs }

def ReservedRange.read : Option ReservedRange := do
  checkUnknown limit [1, 2] fs
  return {
    start := ← int32? 1 fs
    stop := ← int32? 2 fs }

def Field.read : Option Field := do
  checkUnknown limit [1, 2, 3, 4, 5, 6, 7, 8, 9, 10, 17] fs
  return {
    name := ← text? 1 fs
    extendee := ← text? 2 fs
    number := ← int32? 3 fs
    label := ← int32? 4 fs
    kind := ← int32? 5 fs
    typeName := ← text? 6 fs
    defaultValue := ← text? 7 fs
    options := ← one? 8 (below limit FieldOptions.read) fs
    oneofIndex := ← int32? 9 fs
    jsonName := ← text? 10 fs
    proto3Optional := ← bool? 17 fs }

def Oneof.read : Option Oneof := do
  checkUnknown limit [1, 2] fs
  return {
    name := ← text? 1 fs
    options := ← one? 2 (below limit OneofOptions.read) fs }

def EnumValue.read : Option EnumValue := do
  checkUnknown limit [1, 2, 3] fs
  return {
    name := ← text? 1 fs
    number := ← int32? 2 fs
    options := ← one? 3 (below limit EnumValueOptions.read) fs }

def Enum.read : Option Enum := do
  checkUnknown limit [1, 2, 3, 4, 5] fs
  return {
    name := ← text? 1 fs
    values := ← listOf 2 (below limit EnumValue.read) fs
    options := ← one? 3 (below limit EnumOptions.read) fs
    reservedRanges := ← listOf 4 (below limit ReservedRange.read) fs
    reservedNames := ← texts 5 fs }

def Method.read : Option Method := do
  checkUnknown limit [1, 2, 3, 4, 5, 6] fs
  return {
    name := ← text? 1 fs
    inputType := ← text? 2 fs
    outputType := ← text? 3 fs
    options := ← one? 4 (below limit MethodOptions.read) fs
    clientStreaming := ← bool? 5 fs
    serverStreaming := ← bool? 6 fs }

def Service.read : Option Service := do
  checkUnknown limit [1, 2, 3] fs
  return {
    name := ← text? 1 fs
    methods := ← listOf 2 (below limit Method.read) fs
    options := ← one? 3 (below limit ServiceOptions.read) fs }

/-- Reads a message, given the reader of nested messages if they may nest any further. -/
def Message.readWith (limit : Nat) (nested : Option (List RawField → Option Message))
    (fs : List RawField) : Option Message := do
  checkUnknown limit [1, 2, 3, 4, 5, 6, 7, 8, 9, 10] fs
  return {
    name := ← text? 1 fs
    fields := ← listOf 2 (below limit Field.read) fs
    nested := ← listOf 3 nested fs
    enums := ← listOf 4 (below limit Enum.read) fs
    extensionRanges := ← listOf 5 (below limit ExtensionRange.read) fs
    extensions := ← listOf 6 (below limit Field.read) fs
    options := ← one? 7 (below limit MessageOptions.read) fs
    oneofs := ← listOf 8 (below limit Oneof.read) fs
    reservedRanges := ← listOf 9 (below limit ReservedRange.read) fs
    reservedNames := ← texts 10 fs }

def Message.read : (limit : Nat) → List RawField → Option Message
  | 0, fs => Message.readWith 0 none fs
  | limit + 1, fs => Message.readWith (limit + 1) (some (Message.read limit)) fs

def Location.read : Option Location := do
  checkUnknown limit [1, 2, 3, 4, 6] fs
  return {
    path := ← int32s 1 fs
    span := ← int32s 2 fs
    leadingComments := ← text? 3 fs
    trailingComments := ← text? 4 fs
    detachedComments := ← texts 6 fs }

def SourceInfo.read : Option SourceInfo := do
  checkUnknown limit [1] fs
  return {
    locations := ← listOf 1 (below limit Location.read) fs }

def File.read : Option File := do
  checkUnknown limit [1, 2, 3, 4, 5, 6, 7, 8, 9, 10, 11, 12] fs
  return {
    name := ← text? 1 fs
    package := ← text? 2 fs
    dependencies := ← texts 3 fs
    messages := ← listOf 4 (below limit Message.read) fs
    enums := ← listOf 5 (below limit Enum.read) fs
    services := ← listOf 6 (below limit Service.read) fs
    extensions := ← listOf 7 (below limit Field.read) fs
    options := ← one? 8 (below limit FileOptions.read) fs
    sourceInfo := ← one? 9 (below limit SourceInfo.read) fs
    publicDependencies := ← int32s 10 fs
    weakDependencies := ← int32s 11 fs
    syntaxName := ← text? 12 fs }

def Version.read : Option Version := do
  checkUnknown limit [1, 2, 3, 4] fs
  return {
    major := ← int32? 1 fs
    minor := ← int32? 2 fs
    patch := ← int32? 3 fs
    suffix := ← text? 4 fs }

def Request.read : Option Request := do
  checkUnknown limit [1, 2, 3, 15] fs
  return {
    filesToGenerate := ← texts 1 fs
    parameter := ← text? 2 fs
    compilerVersion := ← one? 3 (below limit Version.read) fs
    files := ← listOf 15 (below limit File.read) fs }

/-- The nesting of submessages that a request may have. -/
def nestingLimit : Nat := 100

def File.decode? (bs : List UInt8) : Option File := do File.read nestingLimit (← parse? bs)

def Field.decode? (bs : List UInt8) : Option Field := do Field.read nestingLimit (← parse? bs)

def Request.decode? (bs : List UInt8) : Option Request := do
  Request.read nestingLimit (← parse? bs)

end GoBindings.Descriptor
