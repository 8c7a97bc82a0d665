/-! # Dotted names

A dotted name is a list of identifiers joined by dots. Types and methods are
registered and looked up under dotted names, and an identifier is also what
grammar text may hold without quotes.
-/

namespace ActionGrammar.DottedName

/-- Letters are the ASCII letters, and the underscore counts as one. -/
def isInitial (c : Char) : Bool := c == '_' || c.isAlpha

def isSubsequent (c : Char) : Bool := c == '_' || c.isAlphanum

def isIdentifier : List Char → Bool
  | [] => false
  | c :: cs => isInitial c && cs.all isSubsequent

/-- The parts between dots; a name without dots is its only segment. -/
def segments : List Char → List (List Char)
  | [] => [[]]
  | c :: cs =>
    if c = '.' then [] :: segments cs
    else
      match segments cs with
      | [] => [[c]]
      | s :: ss => (c :: s) :: ss

def isWellFormed (name : String) : Bool :=
  (segments name.toList).all isIdentifier

def split (name : String) : List String :=
  (segments name.toList).map String.ofList

def cutAtLastDot : List Char → Option (List Char × List Char)
  | [] => none
  | c :: cs =>
    match cutAtLastDot cs with
    | some (owner, member) => some (c :: owner, member)
    | none => if c = '.' then some ([], cs) else none

/-- `Owner.Path.member` as `(Owner.Path, member)`. -/
def splitMember? (name : String) : Option (String × String) :=
  (cutAtLastDot name.toList).map fun (owner, member) =>
    (String.ofList owner, String.ofList member)

def join (parts : List String) : String := ".".intercalate parts

end ActionGrammar.DottedName
