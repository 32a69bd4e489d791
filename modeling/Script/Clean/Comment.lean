/-
Comments. Every byte of a comment is replaced by a space, and line
breaks stay, so that nothing behind a comment moves. Strings are left
alone: a comment cannot begin inside of one, and like the lexer's
strings they end at the end of the line.
-/

namespace Script.Clean

/-- What a place of a text belongs to. -/
inductive Region where
  | code
  | string
  | lineComment
  /-- A block comment that begins at an offset. -/
  | blockComment (start : Nat)
deriving DecidableEq, Repr

/-- The spaces in place of a character. -/
def blank (c : Char) : List Char := List.replicate c.utf8Size ' '

/-- Replaces the comments of a text that begins at an offset in a
region; `done` is what comes before it, last character first. The error
is the offset of a block comment that does not end. -/
def blankCommentsFrom (offset : Nat) (region : Region)
    (done : List Char) (text : List Char) : Except Nat (List Char) :=
  match text with
  | [] =>
      match region with
      | .blockComment start => .error start
      | _ => .ok done.reverse
  | c :: cs =>
      let next := offset + c.utf8Size
      match region with
      | .code =>
          match c, cs with
          | '/', '/' :: cs =>
              blankCommentsFrom (offset + 2) .lineComment
                (' ' :: ' ' :: done) cs
          | '/', '*' :: cs =>
              blankCommentsFrom (offset + 2) (.blockComment offset)
                (' ' :: ' ' :: done) cs
          | '"', cs => blankCommentsFrom next .string ('"' :: done) cs
          | c, cs => blankCommentsFrom next .code (c :: done) cs
      | .string =>
          match c, cs with
          | '\\', '\n' :: cs =>
              blankCommentsFrom (offset + 2) .code
                ('\n' :: '\\' :: done) cs
          | '\\', d :: cs =>
              blankCommentsFrom (offset + 1 + d.utf8Size) .string
                (d :: '\\' :: done) cs
          | '"', cs => blankCommentsFrom next .code ('"' :: done) cs
          | '\n', cs => blankCommentsFrom next .code ('\n' :: done) cs
          | c, cs => blankCommentsFrom next .string (c :: done) cs
      | .lineComment =>
          if c = '\n' then blankCommentsFrom next .code ('\n' :: done) cs
          else blankCommentsFrom next .lineComment (blank c ++ done) cs
      | .blockComment _ =>
          match c, cs with
          | '*', '/' :: cs =>
              blankCommentsFrom (offset + 2) .code (' ' :: ' ' :: done) cs
          | '\n', cs => blankCommentsFrom next region ('\n' :: done) cs
          | c, cs => blankCommentsFrom next region (blank c ++ done) cs

/-- A text with its comments replaced, or the offset of a block comment
that does not end. -/
def blankComments (text : List Char) : Except Nat (List Char) :=
  blankCommentsFrom 0 .code [] text

example : (blankComments "a/*é*/\"//\"//".toList).toOption =
    some "a      \"//\"  ".toList := by
  decide +kernel

end Script.Clean
