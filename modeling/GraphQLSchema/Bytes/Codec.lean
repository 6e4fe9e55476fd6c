/-!
# Byte codecs

A codec writes values as bytes and reads them off the front of a byte string. Numbers have a fixed
width, low byte first; texts and lists carry their length in front.
-/

namespace GraphQLSchema

structure Codec (α : Type) where
  encode : α → List UInt8
  decode : List UInt8 → Option (α × List UInt8)

namespace Codec

variable {α β : Type}

def wordBytes : (width : Nat) → Nat → List UInt8
  | 0, _ => []
  | k + 1, n => UInt8.ofNat n :: wordBytes k (n / 256)

def wordValue : List UInt8 → Nat
  | [] => 0
  | b :: bs => b.toNat + 256 * wordValue bs

def split? : Nat → List UInt8 → Option (List UInt8 × List UInt8)
  | 0, bs => some ([], bs)
  | _ + 1, [] => none
  | k + 1, b :: bs =>
    match split? k bs with
    | some (front, bs) => some (b :: front, bs)
    | none => none

def word (width : Nat) : Codec Nat where
  encode n := wordBytes width n
  decode bs := (split? width bs).map fun (front, bs) => (wordValue front, bs)

/-- One of a list of values, by its position in a word. -/
def choice [DecidableEq α] (width : Nat) (all : List α) : Codec α where
  encode a := (word width).encode (all.idxOf a)
  decode bs := do
    let (i, bs) ← (word width).decode bs
    let a ← all[i]?
    some (a, bs)

def flag (width : Nat) : Codec Bool := choice width [false, true]

def pair (a : Codec α) (b : Codec β) : Codec (α × β) where
  encode x := a.encode x.1 ++ b.encode x.2
  decode bs := do
    let (x, bs) ← a.decode bs
    let (y, bs) ← b.decode bs
    some ((x, y), bs)

def via (c : Codec α) (out : β → α) (into : α → β) : Codec β where
  encode b := c.encode (out b)
  decode bs := (c.decode bs).map fun (a, bs) => (into a, bs)

def option (tag : Codec Bool) (c : Codec α) : Codec (Option α) where
  encode
    | none => tag.encode false
    | some a => tag.encode true ++ c.encode a
  decode bs := do
    let (present, bs) ← tag.decode bs
    if present then
      let (a, bs) ← c.decode bs
      some (some a, bs)
    else some (none, bs)

def decodeItems (c : Codec α) : Nat → List UInt8 → Option (List α × List UInt8)
  | 0, bs => some ([], bs)
  | n + 1, bs => do
    let (a, bs) ← c.decode bs
    let (as, bs) ← decodeItems c n bs
    some (a :: as, bs)

def size : Codec Nat := word 8

def list (c : Codec α) : Codec (List α) where
  encode l := size.encode l.length ++ l.flatMap c.encode
  decode bs := do
    let (n, bs) ← size.decode bs
    decodeItems c n bs

def text : Codec String where
  encode s := size.encode s.utf8ByteSize ++ s.toUTF8.data.toList
  decode bs := do
    let (n, bs) ← size.decode bs
    let (front, bs) ← split? n bs
    let s ← String.fromUTF8? ⟨front.toArray⟩
    some (s, bs)

end Codec

end GraphQLSchema
