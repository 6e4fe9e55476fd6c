import GraphQLSchema.Registry.Finalize
import GraphQLSchema.Text.Quoted

/-!
# The schema definition language

`Registry.sdl` prints a closed registry as blocks with an empty line between them: the roots if they
do not follow from the names of types, then directives, then types. Definitions that every schema
has are left out.
-/

namespace GraphQLSchema.Sdl

def quoted (s : String) : List Char := Text.quoteChars s.toList

/-! ## Descriptions -/

def escapeTriple : List Char → List Char
  | '"' :: '"' :: '"' :: s => '\\' :: '"' :: '"' :: '"' :: escapeTriple s
  | c :: s => c :: escapeTriple s
  | [] => []

/-- The lines of a text, each ended by LF or CR LF; the last may do without. -/
def lines : List Char → List (List Char)
  | [] => []
  | '\r' :: '\n' :: s => [] :: lines s
  | '\n' :: s => [] :: lines s
  | c :: s =>
    match lines s with
    | l :: ls => (c :: l) :: ls
    | [] => [[c]]

def indentLine (indent l : List Char) : List Char :=
  if l.isEmpty then ['\n'] else indent ++ l ++ ['\n']

def descriptionBlock (indent : List Char) (text : String) : List Char :=
  let quotes := indent ++ "\"\"\"\n".toList
  quotes ++ (lines (escapeTriple text.toList)).flatMap (indentLine indent) ++ quotes

def description (indent : List Char) : Option String → List Char
  | none => []
  | some text => descriptionBlock indent text

/-! ## Members -/

def defaultReason : String := "No longer supported"

def deprecation : Deprecation → List Char
  | .current => []
  | .deprecated none => " @deprecated".toList
  | .deprecated (some reason) =>
    if reason = defaultReason then " @deprecated".toList
    else " @deprecated(reason: ".toList ++ quoted reason ++ [')']

def step : List Char := [' ', ' ']

/-- Arguments in one line, or one below the other if any of them has a description. -/
def args (indent : List Char) (as : List InputValue) : List Char :=
  if as.isEmpty then []
  else if as.all (·.description.isNone) then
    '(' :: ", ".toList.intercalate (as.map (·.render.toList)) ++ [')']
  else
    "(\n".toList ++
      (as.flatMap fun a =>
        description (indent ++ step) a.description ++ indent ++ step ++ a.render.toList ++ ['\n']) ++
      indent ++ [')']

def field (f : Field) : List Char :=
  description step f.description ++ step ++ f.name.toList ++ args step f.args ++ ": ".toList ++
    f.type.render.toList ++ deprecation f.deprecation ++ ['\n']

def enumValue (v : EnumValue) : List Char :=
  description step v.description ++ step ++ v.name.toList ++ deprecation v.deprecation ++ ['\n']

def inputField (v : InputValue) : List Char :=
  description step v.description ++ step ++ v.render.toList ++ ['\n']

/-! ## Definitions -/

def openBrace : List Char := " \x7b\n".toList

def closeBrace : List Char := "\x7d\n".toList

def joined (mark : String) (words : List String) : List Char :=
  mark.toList.intercalate (words.map String.toList)

def directive (d : Directive) : List Char :=
  description [] d.description ++ "directive @".toList ++ d.name.toList ++ args [] d.args ++
    (if d.repeatable then " repeatable".toList else []) ++ " on ".toList ++
    joined " | " (d.locations.map (·.text)) ++ ['\n']

def specifiedBy : Option String → List Char
  | none => []
  | some url => " @specifiedBy(url: ".toList ++ quoted url ++ [')']

def implementing (interfaces : List String) : List Char :=
  if interfaces.isEmpty then [] else " implements ".toList ++ joined " & " interfaces

def typeBody (t : TypeDef) : List Char :=
  match t.kind with
  | .scalar => "scalar ".toList ++ t.name.toList ++ specifiedBy t.specifiedByURL ++ ['\n']
  | .object =>
    "type ".toList ++ t.name.toList ++ implementing t.interfaces ++ openBrace ++
      t.fields.flatMap field ++ closeBrace
  | .interface =>
    "interface ".toList ++ t.name.toList ++ implementing t.interfaces ++ openBrace ++
      t.fields.flatMap field ++ closeBrace
  | .union => "union ".toList ++ t.name.toList ++ " = ".toList ++ joined " | " t.possibleTypes ++ ['\n']
  | .enum =>
    "enum ".toList ++ t.name.toList ++ openBrace ++ t.enumValues.flatMap enumValue ++ closeBrace
  | .inputObject =>
    "input ".toList ++ t.name.toList ++ openBrace ++ t.inputFields.flatMap inputField ++ closeBrace

def type (t : TypeDef) : List Char := description [] t.description ++ typeBody t

/-! ## Schemas -/

/-- The root that readers assume for an operation when no roots are given: the object type that is
named for it. -/
def impliedRoot (r : Registry) (operation : Operation) : Option String :=
  (r.type? operation.defaultType).bind fun t => if t.kind = .object then some t.name else none

def needsRoots (r : Registry) : Bool :=
  (Operation.all.any fun o => (r.roots.get o).isSome) &&
    !Operation.all.all fun o => r.roots.get o = impliedRoot r o

def rootLine (r : Registry) (operation : Operation) : List Char :=
  match r.roots.get operation with
  | some name => step ++ operation.word.toList ++ ": ".toList ++ name.toList ++ ['\n']
  | none => []

def roots (r : Registry) : List Char :=
  "schema".toList ++ openBrace ++ Operation.all.flatMap (rootLine r) ++ closeBrace

/-- A type that every schema has. -/
def isImplied (t : TypeDef) : Bool :=
  Name.isReserved t.name || (t.kind = .scalar && BuiltIn.isScalar t.name)

def blocks (r : Registry) : List (List Char) :=
  (if needsRoots r then [roots r] else []) ++
    (r.directives.toList.filter fun d => !BuiltIn.isDirective d.name).map directive ++
    (r.types.toList.filter fun t => !isImplied t).map type

end GraphQLSchema.Sdl

namespace GraphQLSchema.Registry

def sdl (r : Registry) : Except SchemaError String := do
  r.ensureClosed
  return String.ofList (['\n'].intercalate (Sdl.blocks r))

end GraphQLSchema.Registry
