/-
What can be wrong with the characters of a source text. Reading goes on
behind a fault, so one text can have many; a stray escape is no more
than a warning.
-/
import Script.Diagnostic

namespace Script.Token

/-- A fault in the characters of a text. -/
inductive Fault where
  /-- A character that begins no token, with the operator that its
  doubling would make. -/
  | unexpectedCharacter (c : Char) (hint : Option String)
  | unterminatedString
  | malformedNumber (text : String)
  /-- An escape that stands for its character, as if it had no
  backslash. -/
  | unknownEscape (c : Char)
deriving DecidableEq, Repr

/-- What a fault reports. -/
def Fault.report : Fault → Report
  | .unexpectedCharacter c hint =>
      let suggestion :=
        match hint with
        | some s => " (did you mean '" ++ s ++ "'?)"
        | none => ""
      ⟨.error, .lex, some "E0201",
        "unexpected character '" ++ c.toString ++ "'" ++ suggestion⟩
  | .unterminatedString =>
      ⟨.error, .lex, some "E0202", "unterminated string literal"⟩
  | .malformedNumber text =>
      ⟨.error, .lex, some "E0203",
        "invalid numeric literal '" ++ text ++ "'"⟩
  | .unknownEscape c =>
      ⟨.warning, .lex, some "E0204",
        "unknown escape sequence '\\" ++ c.toString ++ "'"⟩

end Script.Token
