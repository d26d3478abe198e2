import Juxta.Text.Position
import Juxta.Token.Lexeme

/-!
# From source text to tokens

The source is cut into pieces from left to right: at every boundary the class that applies first
takes its lexeme.  White space and comments are pieces too, but they do not become tokens.  A
boundary at which no class applies is a lexical error.

## What is here

* `Token.scan` — the pieces of a source, and where the scan was stuck, if it was.  The laws
  `scan_nil`, `scan_of_firstLexeme_eq_none` and `scan_of_firstLexeme_eq_some` say how it proceeds.
* `Token.tokenizeWith`, `Token.tokenize` — the tokens of a source, with or without its comments.
* `LexError` — where a source has no token.
-/

set_option autoImplicit false
namespace Juxta

/-- The offset at which no lexical class applies, and its position. -/
structure LexError where
  offset : Nat
  position : Position
deriving DecidableEq, Repr

/-- The text of the error. -/
def LexError.message (e : LexError) : String :=
  s!"[{e.position.line}:{e.position.column}] unexpected character"

namespace Token

/-- The pieces of a source, and the offset at which no class applied, if the scan did not reach the
end. -/
structure Scan where
  pieces : List Token
  stuck : Option Nat
deriving DecidableEq, Repr

/-- Cuts `cs`, which starts at offset `pos` of the source, into pieces.  Its first `skip` characters
belong to the piece before. -/
def scanAfter : (skip pos : Nat) → (cs : List Char) → Scan
  | _, _, [] => ⟨[], none⟩
  | skip + 1, pos, _ :: cs => scanAfter skip (pos + 1) cs
  | 0, pos, c :: cs =>
    match firstLexeme (c :: cs) with
    | none => ⟨[], some pos⟩
    | some (kind, lexeme) =>
      let rest := scanAfter (lexeme.length - 1) (pos + 1) cs
      ⟨⟨kind, String.ofList lexeme, pos⟩ :: rest.pieces, rest.stuck⟩

/-- Cuts `cs`, which starts at offset `pos` of the source, into pieces. -/
def scan (pos : Nat) (cs : List Char) : Scan :=
  scanAfter 0 pos cs

/-- To skip characters is to scan what comes after them. -/
theorem scanAfter_eq_scan (skip pos : Nat) (cs : List Char) :
    scanAfter skip pos cs = scan (pos + skip) (cs.drop skip) := by
  induction cs generalizing skip pos with
  | nil => cases skip <;> rfl
  | cons c cs ih =>
    cases skip with
    | zero => rfl
    | succ skip =>
      rw [scanAfter, ih, List.drop_succ_cons]
      congr 1
      omega

@[simp] theorem scan_nil (pos : Nat) : scan pos [] = ⟨[], none⟩ := rfl

/-- Where no class applies, the scan is stuck. -/
theorem scan_of_firstLexeme_eq_none {pos : Nat} {cs : List Char} (hcs : cs ≠ [])
    (h : firstLexeme cs = none) : scan pos cs = ⟨[], some pos⟩ := by
  cases cs with
  | nil => exact absurd rfl hcs
  | cons c cs => simp [scan, scanAfter, h]

/-- Otherwise the first class that applies takes its lexeme, and the scan goes on behind it. -/
theorem scan_of_firstLexeme_eq_some {pos : Nat} {cs lexeme : List Char} {kind : Kind}
    (h : firstLexeme cs = some (kind, lexeme)) :
    scan pos cs =
      let rest := scan (pos + lexeme.length) (cs.drop lexeme.length)
      ⟨⟨kind, String.ofList lexeme, pos⟩ :: rest.pieces, rest.stuck⟩ := by
  have hl := List.length_pos_iff.2 (ne_nil_of_firstLexeme h)
  cases cs with
  | nil => simp at h
  | cons c cs =>
    have hd : (c :: cs).drop lexeme.length = cs.drop (lexeme.length - 1) := by
      obtain ⟨n, hn⟩ := Nat.exists_eq_add_of_lt hl
      simp [hn]
    have hp : pos + 1 + (lexeme.length - 1) = pos + lexeme.length := by omega
    rw [scan, scanAfter, h]
    simp only [scanAfter_eq_scan, hd, hp]

/-- Whether a piece of this class becomes a token. -/
def Kind.isKept (comments : Bool) (k : Kind) : Bool :=
  k ≠ .whitespace && (k ≠ .comment || comments)

/-- The tokens of a source.  Comments are among them on demand, white space never is. -/
def tokenizeWith (comments : Bool) (source : String) : Except LexError (List Token) :=
  let cs := source.toList
  let result := scan 0 cs
  match result.stuck with
  | none => .ok (result.pieces.filter (·.kind.isKept comments))
  | some offset => .error ⟨offset, Position.start.after (cs.take offset)⟩

/-- The tokens of a source without its comments. -/
def tokenize (source : String) : Except LexError (List Token) :=
  tokenizeWith false source

end Token
end Juxta
