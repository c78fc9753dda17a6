import TypeLayout.Token

/-!
# Errors in declarations

What can be wrong with the way declarations are written or with what they mean.
Names inside an error are of a type `ν`: spellings while the source is read, and
positions in a `Names` table in what is reported.
-/

namespace TypeLayout

/-- What can be wrong with a declaration. -/
inductive ParseError (ν : Type) where
  | unexpectedEof
  | expected (c : Char) (found : Lexeme ν)
  | expectedType (found : Lexeme ν)
  | expectedIdentifier (found : Lexeme ν)
  | unknownType (name : ν)
  | signedAndUnsigned
  | conflictingSpecifiers
  | unknownUnsigned (name : String)
  | unsupportedBase (name : String)
  | tagWithoutBody (keyword : String)
  | duplicateDefinition (name : String)
  | incompleteField (name : String)
  | voidField (name : ν)
  | bitField (name : ν)
  | missingDimension
  | invalidDimension (text : String)
deriving DecidableEq, Repr

namespace ParseError

variable {ν : Type}

/-- Whether an error is about what the declarations mean and not about how they
are written. -/
def isSemantic : ParseError ν → Bool
  | duplicateDefinition _ | incompleteField _ | voidField _ | unknownType _ => true
  | _ => false

/-- The text of an error, if its names can be spelled. -/
def message? (spell? : ν → Option String) : ParseError ν → Option String
  | unexpectedEof => some "Unexpected end of file"
  | expected c found =>
    (found.describe? spell?).map ("Expected '" ++ c.toString ++ "', but found " ++ ·)
  | expectedType found => (found.describe? spell?).map ("Expected a type, but found " ++ ·)
  | expectedIdentifier found =>
    (found.describe? spell?).map ("Expected identifier in declarator, but found " ++ ·)
  | unknownType name => (spell? name).map ("Unknown type name " ++ ·)
  | signedAndUnsigned => some "Both signed and unsigned in one type"
  | conflictingSpecifiers => some "Conflicting type specifiers"
  | unknownUnsigned name => some ("There is no type " ++ name)
  | unsupportedBase name => some (name ++ " has no portable representation")
  | tagWithoutBody keyword => some ("Expected a name or a body after " ++ keyword)
  | duplicateDefinition name => some (name ++ " is already defined")
  | incompleteField name => some ("Field has incomplete type " ++ name)
  | voidField name => (spell? name).map ("Field " ++ · ++ " is declared void")
  | bitField name => (spell? name).map ("Bit-field " ++ · ++ " cannot be described")
  | missingDimension => some "Array dimension is missing"
  | invalidDimension text => some ("Invalid array dimension " ++ text)

/-- The name that an error mentions. -/
def name? : ParseError ν → Option ν
  | expected _ found | expectedType found | expectedIdentifier found => found.text?
  | unknownType name | voidField name | bitField name => some name
  | _ => none

/-- The error with another name in it. -/
def map {μ : Type} (f : ν → μ) : ParseError ν → ParseError μ
  | unexpectedEof => unexpectedEof
  | expected c found => expected c (found.map f)
  | expectedType found => expectedType (found.map f)
  | expectedIdentifier found => expectedIdentifier (found.map f)
  | unknownType name => unknownType (f name)
  | signedAndUnsigned => signedAndUnsigned
  | conflictingSpecifiers => conflictingSpecifiers
  | unknownUnsigned name => unknownUnsigned name
  | unsupportedBase name => unsupportedBase name
  | tagWithoutBody keyword => tagWithoutBody keyword
  | duplicateDefinition name => duplicateDefinition name
  | incompleteField name => incompleteField name
  | voidField name => voidField (f name)
  | bitField name => bitField (f name)
  | missingDimension => missingDimension
  | invalidDimension text => invalidDimension text

/-- The error with its names interned. -/
def intern (names : Names) : ParseError String → ParseError NameId × Names
  | unexpectedEof => (unexpectedEof, names)
  | expected c found => let (l, names) := found.intern names; (expected c l, names)
  | expectedType found => let (l, names) := found.intern names; (expectedType l, names)
  | expectedIdentifier found =>
    let (l, names) := found.intern names
    (expectedIdentifier l, names)
  | unknownType name => let (id, names) := names.insert name; (unknownType id, names)
  | signedAndUnsigned => (signedAndUnsigned, names)
  | conflictingSpecifiers => (conflictingSpecifiers, names)
  | unknownUnsigned name => (unknownUnsigned name, names)
  | unsupportedBase name => (unsupportedBase name, names)
  | tagWithoutBody keyword => (tagWithoutBody keyword, names)
  | duplicateDefinition name => (duplicateDefinition name, names)
  | incompleteField name => (incompleteField name, names)
  | voidField name => let (id, names) := names.insert name; (voidField id, names)
  | bitField name => let (id, names) := names.insert name; (bitField id, names)
  | missingDimension => (missingDimension, names)
  | invalidDimension text => (invalidDimension text, names)

end ParseError

end TypeLayout
