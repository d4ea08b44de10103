import NaturalNames.Ordered.Set
import NaturalNames.Token

/-!
# `NaturalNames.Scope`: where an identifier lives

A scope is the snippet of code in which a name is judged, with what is known about the place: its
syntactic role, the role of what encloses it, and the kind and type of the thing named. Scopes
come from a `ScopeExtractor`. The flat one here takes a whole unit as one scope, which needs no
parser.
-/

set_option autoImplicit false

namespace NaturalNames

/-- What an identifier names. -/
inductive NameKind where
  | var
  | method
  | type
deriving DecidableEq, Repr

namespace NameKind

/-- Reads a kind, in letters of either case. -/
def ofText (text : String) : Except Error NameKind :=
  let word := text.toLower
  if word = "variable" ∨ word = "var" then .ok .var
  else if word = "method" then .ok .method
  else if word = "type" ∨ word = "typename" then .ok .type
  else .error (.config (.unknownKind word))

/-- The name of a kind in texts. -/
def toText : NameKind → String
  | .var => "variable"
  | .method => "method"
  | .type => "type"

/-- Variables come first, then methods, then types. -/
def place : NameKind → Nat
  | .var => 0
  | .method => 1
  | .type => 2

instance : Ord NameKind := ⟨compareOn place⟩

instance : Std.TransOrd NameKind := inferInstanceAs (Std.TransCmp (compareOn place))

end NameKind

/-- A snippet of code and what is known about its place. -/
structure Scope where
  snippet : String
  /-- The syntactic role of the snippet. -/
  category : String
  /-- The role of what encloses it. -/
  parentCategory : String
  kind : NameKind
  /-- The type of the identifier, if it is known. -/
  inferredType : Option String
deriving DecidableEq, Repr

namespace Scope

/-- A snippet of which only the kind of name is known. -/
def ofSnippet (snippet : String) (kind : NameKind) : Scope where
  snippet := snippet
  category := ""
  parentCategory := ""
  kind := kind
  inferredType := none

/-- The scope with another snippet. -/
def withSnippet (scope : Scope) (snippet : String) : Scope := { scope with snippet := snippet }

/-- Two scopes of one syntactic context: the same categories and kind, whatever the snippet. -/
def sameContext (a b : Scope) : Bool :=
  a.kind = b.kind && a.category = b.category && a.parentCategory = b.parentCategory

/-- Scopes are ordered field by field; no type comes before any type. -/
def order : Scope → Scope → Ordering :=
  compareLex (compareOn snippet) <|
    compareLex (compareOn category) <|
      compareLex (compareOn parentCategory) <|
        compareLex (compareOn kind) (compareOn inferredType)

instance : Ord Scope := ⟨order⟩

end Scope

/-- A name and the scope it was found in. -/
structure Occurrence where
  scope : Scope
  name : String
deriving DecidableEq, Repr

/-- A way to find the names of a unit of code. -/
structure ScopeExtractor where
  extract : String → Except Error (List Occurrence)

namespace ScopeExtractor

/-- The different identifiers among the tokens, ascending. -/
def identifiers (tokenizer : Tokenizer) (tokens : List Token) : SortedSet String :=
  .ofList ((tokens.filter tokenizer.isIdentifier).map Token.text)

/-- Takes the whole unit as one scope, in which each identifier occurs once. -/
def flat (tokenizer : Tokenizer) (kind : NameKind) : ScopeExtractor where
  extract unit :=
    (tokenizer.tokenize unit).map fun tokens =>
      let scope := { Scope.ofSnippet unit kind with category := "unit" }
      (identifiers tokenizer tokens).toList.map fun name => ⟨scope, name⟩

end ScopeExtractor

end NaturalNames
