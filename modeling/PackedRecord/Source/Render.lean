import PackedRecord.Generation

/-!
# Rendered source

Generated procedures are written out as source text: an implementation block of
the record type whose functions call the checked accesses of a runtime library.
A procedure is a list of lines, one for each statement between its signature and
its result, so that the text can be read statement by statement.
-/

namespace PackedRecord.Source

structure RenderOptions where
  /-- The path by which the source reaches the runtime library. -/
  runtimePath : String := "::binlayout"
  visibility : String := "pub"
  deriving DecidableEq, Repr

namespace RenderOptions

/-- The path of a checked access in the runtime library. -/
def access (options : RenderOptions) (name : String) : String :=
  options.runtimePath ++ "::wire::" ++ name

def orderPath (options : RenderOptions) (order : ByteOrder) : String :=
  options.runtimePath ++ "::" ++ order.sourcePath

end RenderOptions

def requireLine (options : RenderOptions) (size : Offset) : String :=
  options.access "require" ++ "(buffer.len(), " ++ size.sourceText ++ ")?;"

def readLine (options : RenderOptions) (field : PlacedField) : String :=
  let target := localName field.name
  let start := field.offset.sourceText
  let readInteger (type : IntegerType) (order : ByteOrder) :=
    "let " ++ target ++ " = " ++ options.access "read" ++ "::<" ++
      type.spelling ++ ">(buffer, " ++ start ++ ", " ++
      options.orderPath order ++ ")?;"
  match field.access with
  | .integer type order => readInteger type order
  | .byte signed => readInteger (.byte signed) .little
  | .enum name underlying order =>
      "let " ++ target ++ " = " ++ options.access "read_enum" ++ "::<" ++ name ++
        ", " ++ underlying.spelling ++ ">(buffer, " ++ start ++ ", " ++
        options.orderPath order ++ ", \"" ++ name ++ "\")?;"
  | .composite name operation length =>
      "let (" ++ target ++ ", " ++ length.name ++ ") = " ++
        options.access "decode_nested" ++ "(buffer, " ++ start ++ ", " ++ name ++
        "::" ++ operation.name "decode" ++ ")?;"

def writeLine (options : RenderOptions) (field : PlacedField) : String :=
  let member := "self." ++ memberName field.name
  let start := field.offset.sourceText
  let writeInteger (type : IntegerType) (order : ByteOrder) (value : String) :=
    options.access "write" ++ "::<" ++ type.spelling ++ ">(buffer, " ++ start ++
      ", " ++ options.orderPath order ++ ", " ++ value ++ ")?;"
  match field.access with
  | .integer type order => writeInteger type order member
  | .byte signed => writeInteger (.byte signed) .little member
  | .enum _ underlying order =>
      writeInteger underlying order (member ++ " as " ++ underlying.spelling)
  | .composite _ operation length =>
      "let " ++ length.name ++ " = " ++ options.access "encode_nested" ++
        "(buffer, " ++ start ++ ", |rest| " ++ member ++ "." ++
        operation.name "encode" ++ "(rest))?;"

/-- The initialiser of a member from the local of its field. -/
def initialiser (field : String) : String :=
  if memberName field = localName field then
    memberName field
  else
    memberName field ++ ": " ++ localName field

def constructLine (fields : List String) : String :=
  if fields = [] then
    "let result = Self \x7b\x7d;"
  else
    "let result = Self \x7b " ++
      ", ".intercalate (fields.map initialiser) ++ " \x7d;"

def statementLine (options : RenderOptions) : Statement → String
  | .require size => requireLine options size
  | .read field => readLine options field
  | .write field => writeLine options field
  | .construct fields => constructLine fields

def signatureLine (options : RenderOptions) (procedure : Procedure) : String :=
  let parametersAndResult :=
    match procedure.direction with
    | .decode => "(buffer: &[u8]) -> ::core::result::Result<(Self, usize), "
    | .encode => "(&self, buffer: &mut [u8]) -> ::core::result::Result<usize, "
  options.visibility ++ " fn " ++ procedure.name ++ parametersAndResult ++
    options.runtimePath ++ "::CodecError> \x7b"

def returnLine (procedure : Procedure) : String :=
  match procedure.direction with
  | .decode => "Ok((result, " ++ procedure.returns.sourceText ++ "))"
  | .encode => "Ok(" ++ procedure.returns.sourceText ++ ")"

/-- The lines of a procedure as a member of an implementation block. -/
def procedureLines (options : RenderOptions) (procedure : Procedure) :
    List String :=
  let body := procedure.body.map (statementLine options)
  ["    " ++ signatureLine options procedure] ++
    (body ++ [returnLine procedure]).map ("        " ++ ·) ++ ["    \x7d"]

def pairLines (options : RenderOptions) (pair : CodecPair) : List String :=
  procedureLines options pair.decode ++
    "" :: procedureLines options pair.encode

def generatedLines (options : RenderOptions) (generated : Generated) :
    List String :=
  ("impl " ++ generated.record ++ " \x7b") ::
    [""].intercalate (generated.codecs.map (pairLines options)) ++ ["\x7d"]

/-- The text of some lines, each of which is ended. -/
def textOfLines (lines : List String) : String :=
  String.join (lines.map (· ++ "\n"))

def renderPair (options : RenderOptions) (pair : CodecPair) : String :=
  textOfLines (pairLines options pair)

def render (options : RenderOptions) (generated : Generated) : String :=
  textOfLines (generatedLines options generated)

end PackedRecord.Source
