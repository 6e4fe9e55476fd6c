/-!
# Arguments

`scan` sorts arguments into options and operands. Options have a long name and some of them a
short one; a value is attached to the option or follows it. Behind `--` all arguments are operands.
-/

namespace GraphQLSchema.CommandLine

structure Flag where
  long : String
  short : Option Char
  takesValue : Bool
  deriving DecidableEq, Repr

/-- Why arguments do not lead to a command: help is asked for, or they are not in order. -/
inductive Stop where
  | help
  | usage
  deriving DecidableEq, Repr

/-- What has been given so far. An option without a value has the empty one. The last option is
pending if its value is an argument of its own: it is looked at when the next argument is taken, or
at the end. -/
structure Given where
  options : List (String × String) := []
  operands : List String := []
  pending : Option (Flag × String) := none
  deriving DecidableEq, Repr

namespace Given

def value? (g : Given) (long : String) : Option String := g.options.lookup long

def has (g : Given) (long : String) : Bool := (g.value? long).isSome

end Given

inductive Argument where
  | operand (text : String)
  | long (name : String) (value : Option String)
  | short (letter : Char) (rest : List Char)
  deriving DecidableEq, Repr

namespace Argument

def splitValue (s : List Char) : String × Option String :=
  match s.dropWhile (· ≠ '=') with
  | _ :: v => (String.ofList (s.takeWhile (· ≠ '=')), some (String.ofList v))
  | [] => (String.ofList s, none)

def ofString (a : String) : Argument :=
  match a.toList with
  | '-' :: '-' :: s => long (splitValue s).1 (splitValue s).2
  | '-' :: c :: s => short c s
  | _ => operand a

def isOperand (a : String) : Bool :=
  match ofString a with
  | operand _ => true
  | _ => false

def attached (rest : List Char) : Option String :=
  match rest with
  | [] => none
  | '=' :: v => some (String.ofList v)
  | v => some (String.ofList v)

end Argument

/-- An option with the value attached to it. Help comes at once, unless a value is attached to its
long name. -/
def findFlag (flags : List Flag) : Argument → Except Stop (Flag × Option String)
  | .operand _ => .error .usage
  | .long name value =>
    if name = "help" then .error (if value.isSome then .usage else .help)
    else
      match flags.find? (·.long = name) with
      | some f => .ok (f, value)
      | none => .error .usage
  | .short letter rest =>
    if letter = 'h' then .error .help
    else
      match flags.find? (·.short = some letter) with
      | some f => .ok (f, Argument.attached rest)
      | none => .error .usage

/-- Records an option. It is given once, and a value is not empty. -/
def Given.add (g : Given) (f : Flag) (value : String) : Except Stop Given :=
  if g.has f.long || (f.takesValue && value.isEmpty) then .error .usage
  else .ok { g with options := g.options ++ [(f.long, value)] }

def Given.settle (g : Given) : Except Stop Given :=
  match g.pending with
  | none => .ok g
  | some (f, v) => { g with pending := none }.add f v

def Given.addOperands (g : Given) (operands : List String) : Except Stop Given :=
  if operands.any (·.isEmpty) then .error .usage
  else .ok { g with operands := g.operands ++ operands }

/-- Takes options and at most `capacity` operands; stops in front of the next operand, with the
last option pending. -/
def scan (flags : List Flag) (capacity : Nat) (g : Given) : List String → Except Stop (Given × List String)
  | [] => .ok (g, [])
  | a :: args =>
    if a ≠ "--" && Argument.isOperand a && capacity ≤ g.operands.length then .ok (g, a :: args)
    else
      match g.settle with
      | .error e => .error e
      | .ok g =>
        if a = "--" then
          if g.operands.length + args.length ≤ capacity then (g.addOperands args).map (·, [])
          else .error .usage
        else if Argument.isOperand a then
          match g.addOperands [a] with
          | .ok g => scan flags capacity g args
          | .error e => .error e
        else
          match findFlag flags (.ofString a) with
          | .error e => .error e
          | .ok (f, some v) =>
            if !f.takesValue then .error .usage
            else
              match g.add f v with
              | .ok g => scan flags capacity g args
              | .error e => .error e
          | .ok (f, none) =>
            if !f.takesValue then
              match g.add f "" with
              | .ok g => scan flags capacity g args
              | .error e => .error e
            else
              match args with
              | v :: args =>
                if Argument.isOperand v then scan flags capacity { g with pending := some (f, v) } args
                else .error .usage
              | [] => .error .usage

end GraphQLSchema.CommandLine
