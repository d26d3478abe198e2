import Juxta.Proofs.Decimal.Exactness
import Juxta.Proofs.Run.Assignments
import Juxta.Proofs.Run.Chains
import Juxta.Proofs.Run.Grouping

/-!
# Integers in decimal

Digits are read as the number that they denote, and that number is written with the same digits,
but for zeros in front of them that could be left out.  This holds for digits of any length, up to
the largest integer that a literal can denote.  Beyond it a literal is an error at its place.
Negative integers have no literals, and are written as differences.

## What is here

* `Decimal.digitsIn` — the digits that characters stand for; `Decimal.IsWhole.toList_repr` — writing
  the number that they denote.
* `Numeral` — a text of digits; `Numeral.value` — what it denotes; `Numeral.plain` — it without
  superfluous zeros; `Numeral.ofNat` — the numeral of a number.
* `Numeral.tokenize_text`, `Numeral.reads`, `Numeral.refuses` — how a numeral is read.
* `Yields` — what comes of a source that is one expression.
* `literals_round_trip` — the main result.
-/

set_option autoImplicit false
namespace Juxta

/-! ## Digits -/

namespace Decimal

variable {cs : List Char}

/-- The digits that characters stand for. -/
def digitsIn (cs : List Char) : List Nat :=
  cs.map fun c => c.toNat - '0'.toNat

theorem digit_bounds {c : Char} (h : c.isDigit = true) :
    c.toNat - '0'.toNat < 10 ∧ Nat.digitChar (c.toNat - '0'.toNat) = c := by
  obtain ⟨hlow, hhigh⟩ := Char.isDigit_iff_toNat.1 h
  have hzero : '0'.toNat = 48 := rfl
  have hnine : '9'.toNat = 57 := rfl
  have hten : c.toNat - '0'.toNat < 10 := by omega
  refine ⟨hten, ?_⟩
  rw [← Char.toNat_inj, Nat.toNat_digitChar_of_lt_ten hten]
  omega

theorem lt_ten_of_mem_digitsIn (h : ∀ c ∈ cs, c.isDigit = true) : ∀ d ∈ digitsIn cs, d < 10 := by
  intro d hd
  obtain ⟨c, hc, rfl⟩ := List.mem_map.1 hd
  exact (digit_bounds (h c hc)).1

/-- The digits are written with the characters that they stand for. -/
theorem digitText_digitsIn (h : ∀ c ∈ cs, c.isDigit = true) : digitText (digitsIn cs) = cs := by
  rw [digitText, digitsIn, List.map_map]
  exact (List.map_congr_left fun c hc => (digit_bounds (h c hc)).2).trans (List.map_id cs)

/-- The numeral of a number consists of its digits. -/
theorem toList_repr_eq_digitText (n : Nat) : n.repr.toList = digitText (digitsOf n) := by
  rw [Nat.toList_repr]
  exact (digitText_digitsIn fun c => Nat.isDigit_of_mem_toDigits (by decide) (by decide)).symm

/-- **A number is written with the digits that denote it**, if no zero is superfluous. -/
theorem IsWhole.toList_repr (h : IsWhole cs) : (ofDigits (digitsIn cs)).repr.toList = cs := by
  by_cases hzero : cs.head? = some '0'
  · rw [h.zero hzero]
    rfl
  · have hten := lt_ten_of_mem_digitsIn h.isDigit
    have htext := digitText_digitsIn h.isDigit
    have hhead : (digitsIn cs).head? ≠ some 0 := by
      intro hhead
      apply hzero
      rw [← htext, digitText, List.head?_map, hhead]
      rfl
    have hpos : 0 < ofDigits (digitsIn cs) := by
      refine Nat.pos_of_ne_zero fun hnone => ?_
      have hnil : digitsIn cs = [] :=
        digits_eq_of_ofDigits_eq hten (List.forall_mem_nil _) hhead (by simp) hnone
      rw [hnil] at htext
      exact h.nonempty htext.symm
    have hdigits : digitsOf (ofDigits (digitsIn cs)) = digitsIn cs :=
      digits_eq_of_ofDigits_eq (fun _ => lt_ten_of_mem_digitsOf) hten (head?_digitsOf hpos) hhead
        (ofDigits_digitsOf _)
    rw [toList_repr_eq_digitText, hdigits, htext]

/-- Zeros in front of digits add nothing. -/
theorem ofDigits_dropWhile (cs : List Char) :
    ofDigits (digitsIn (cs.dropWhile (· = '0'))) = ofDigits (digitsIn cs) := by
  induction cs with
  | nil => rfl
  | cons c cs ih =>
    by_cases hc : c = '0'
    · rw [hc, List.dropWhile_cons_of_pos (by rfl), ih]
      rfl
    · rw [List.dropWhile_cons_of_neg (by simpa using hc)]

end Decimal

/-! ## Numerals -/

/-- A text of digits, of any length and also with zeros in front. -/
structure Numeral where
  text : String
  nonempty : text.toList ≠ []
  isDigit : ∀ c ∈ text.toList, c.isDigit = true

namespace Numeral

/-- The number that a numeral denotes. -/
def value (s : Numeral) : Nat :=
  Decimal.ofDigits (Decimal.digitsIn s.text.toList)

/-- The numeral without the zeros in front of its digits.  One of them stays if there are no other
digits. -/
def plain (s : Numeral) : String :=
  match s.text.toList.dropWhile (· = '0') with
  | [] => "0"
  | cs => String.ofList cs

/-- The numeral of a number. -/
def ofNat (n : Nat) : Numeral where
  text := toString n
  nonempty := Decimal.toList_repr_ne_nil n
  isDigit _ := Decimal.isDigit_of_mem_repr

@[simp] theorem value_ofNat (n : Nat) : (ofNat n).value = n := by
  show Decimal.ofDigits (Decimal.digitsIn n.repr.toList) = n
  rw [Nat.toList_repr]
  exact Decimal.ofDigits_digitsOf n

/-- **A numeral denotes a number whose numeral it is**, but for superfluous zeros. -/
theorem toString_value (s : Numeral) : toString s.value = s.plain := by
  rw [value, ← Decimal.ofDigits_dropWhile, plain]
  have hhead := List.head?_dropWhile_not (· = '0') s.text.toList
  have hdigits : ∀ c ∈ s.text.toList.dropWhile (· = '0'), c.isDigit = true :=
    fun c hc => s.isDigit c ((List.dropWhile_sublist _).subset hc)
  cases hdrop : s.text.toList.dropWhile (· = '0') with
  | nil => rfl
  | cons c cs =>
    rw [hdrop] at hhead hdigits
    have hne : c ≠ '0' := by simpa using hhead
    have hwhole : Decimal.IsWhole (c :: cs) :=
      ⟨List.cons_ne_nil c cs, hdigits, fun hzero => absurd (Option.some.inj hzero) hne⟩
    rw [← String.toList_inj, Nat.toString_eq_repr, hwhole.toList_repr, String.toList_ofList]

/-- A number is written without superfluous zeros. -/
theorem plain_ofNat (n : Nat) : (ofNat n).plain = (ofNat n).text := by
  rw [← toString_value, value_ofNat]
  rfl

/-! ## Tokens and trees -/

/-- The token that a numeral is. -/
def token (s : Numeral) : Token :=
  ⟨.integer, s.text, 0⟩

/-- The leaf that a numeral is read as. -/
def leaf (s : Numeral) : Node :=
  .leaf .integer (.int s.value) (some 0)

/-- **A numeral is one token.** -/
theorem tokenize_text (s : Numeral) : Token.tokenize s.text = .ok [s.token] := by
  have hfirst : Token.firstLexeme (s.text.toList ++ []) = some (.integer, s.text.toList) :=
    Token.firstLexeme_digits s.nonempty s.isDigit nofun
  have hcuts : Token.Cuts 0 (s.text.toList ++ []) _ := Chain.cuts_append hfirst .nil
  rw [List.append_nil] at hcuts
  rw [hcuts.tokenize_eq, String.ofList_toList]
  rfl

theorem lexical_token (s : Numeral) : s.token.Lexical :=
  Token.lexical_of_tokenize s.tokenize_text _ (List.mem_singleton_self _)

theorem integerOf_token (s : Numeral) : Parser.integerOf s.token = s.value := by
  rw [Parser.integerOf, token, Decimal.readInteger?_of_isDigit s.nonempty s.isDigit]
  rfl

/-- A numeral that is not too large is an expression. -/
theorem reads {s : Numeral} (h : s.value ≤ Parser.maxInteger) :
    Parser.Reads Parser.standardForms .expression [s.token] [s.leaf] [] := by
  rw [← s.integerOf_token] at h
  have hread : Parser.Reads _ _ [s.token] [Parser.integerLeaf s.token] [] :=
    Parser.reads_integer s.lexical_token rfl h rfl
  rw [Parser.integerLeaf, s.integerOf_token] at hread
  exact .plain (.call hread rfl (.noArgument rfl)) rfl

/-- A numeral that is too large is an error at its token, in every mode. -/
theorem refuses {s : Numeral} (h : Parser.maxInteger < s.value) (mode : Parser.Mode) :
    mode.Refuses Parser.standardForms [s.token] "64-bit integer" [s.token] := by
  rw [← s.integerOf_token] at h
  have hform := Parser.formAt_of_formOfKind s.lexical_token rfl rfl
  have hopens : Parser.Opens [s.token] := Parser.opens_of_formAt s.lexical_token hform
  have hvalue : Parser.Stuck _ .value [s.token] _ [s.token] := .integer hform h
  have hexpression := Parser.Stuck.lhs (.callee (.base hvalue))
  have hstatements := Parser.Stuck.firstStatement hopens.line hopens.statement hexpression
  cases mode with
  | program => exact .inl hstatements
  | expressions => exact hstatements
  | expression => exact hexpression

/-- **A numeral that is too large has no tree**, in any mode. -/
theorem tree_of_lt {s : Numeral} (h : Parser.maxInteger < s.value) (mode : Parser.Mode)
    (tracing : Bool) :
    (Parser.parseSource { Parser.Settings.standard with tracing } mode s.text).tree =
      .error (.parse ⟨"64-bit integer", Text.inQuotes s.text, some 0, some .start⟩) := by
  have hparses := Parser.parsesTo_parseSource { Parser.Settings.standard with tracing } mode s.text
  have hrefuses : mode.Refuses Parser.standardForms [s.token] "64-bit integer"
    (Parser.State.ofTokens [s.token]).ahead := refuses h mode
  have hlocate : ((Parser.State.ofTokens [s.token]).error "64-bit integer").locate s.text =
      ⟨"64-bit integer", Text.inQuotes s.text, some 0, Position.ofOffset? s.text 0⟩ := rfl
  have hstart : Position.ofOffset? s.text 0 = some .start :=
    Position.ofOffset?_of_le (Nat.zero_le _)
  rw [(Parser.ParsesTo.parseError s.tokenize_text rfl hrefuses).unique hparses, hlocate, hstart]

end Numeral

/-! ## Runs -/

/-- In every mode the source is parsed as one expression with the given tree.  That is evaluated to
the value everywhere, and a run of the source ends with the value; a program ends with nil. -/
structure Yields (source : String) (node : Node) (v : Value) : Prop where
  tree : ∀ (mode : Parser.Mode) (tracing : Bool),
    (Parser.parseSource { Parser.Settings.standard with tracing } mode source).tree =
      .ok (mode.root node)
  eval : ∀ (frame : Nat) (m : Machine), node.eval frame m = .ok v m
  run : ∀ (options : RunOptions) (env : Environment) (frame : Nat),
    (runSource options env frame source).ending =
      .value (if options.mode = .program then .nil else v)

variable {source : String} {ts : List Token} {node : Node} {v : Value}

theorem Yields.of_reads (htokens : Token.tokenize source = .ok ts)
    (hread : Parser.Reads Parser.standardForms .expression ts [node] [])
    (heval : ∀ (frame : Nat) (m : Machine), node.eval frame m = .ok v m) :
    Yields source node v where
  tree := Parser.Mode.parse_root htokens hread
  eval := heval
  run options env frame := by
    have hparse := options.mode.parse_root htokens hread false
    rw [(runSource_of_parse hparse env frame).1, evaluateAt,
      Parser.Mode.eval_root_of_ok (heval frame _)]
    rfl

/-- **A numeral that is not too large is its value.** -/
theorem Numeral.yields {s : Numeral} (h : s.value ≤ Parser.maxInteger) :
    Yields s.text s.leaf (.int s.value) :=
  .of_reads s.tokenize_text (Numeral.reads h) fun _ _ => rfl

/-- **The negative of a numeral is a difference.** -/
theorem exists_yields_sub {k : Nat} (h : k ≤ Parser.maxInteger) :
    ∃ node, Yields ("0 - " ++ (Numeral.ofNat k).text) node (.int (-k)) := by
  have hlt : k < 2 ^ 63 := by
    rw [Parser.maxInteger] at h
    omega
  let c : Chain := ⟨0, [(.sub, ⟨k, hlt⟩)]⟩
  have htext : c.text = "0 - " ++ (Numeral.ofNat k).text := by
    rw [← String.toList_inj]
    simp [c, Chain.text, Chain.stepText, Numeral.ofNat, Operator.symbol]
  obtain ⟨ts, node, htokens, hread, hextends⟩ := c.exists_reads
  refine ⟨node, htext ▸ .of_reads htokens hread fun frame m => ?_⟩
  have hdenotes : node.Denotes (0 - k) := by
    have hzero : (Node.leaf .integer (.int 0) (some 0)).Denotes 0 :=
      .literal (Int.le_refl 0) (by decide)
    cases hextends with
    | cons hextends =>
      cases hextends with
      | nil => exact .operation rfl hzero (.literal (Int.natCast_nonneg k) h)
  have hrange : IsInt64 (0 - k) := by
    have hpow : (↑(Nat.pow 2 63) : Int) = 9223372036854775808 := by decide
    rw [IsInt64, hpow]
    omega
  rw [hdenotes.eval, wrap_eq_self hrange, Int.zero_sub]

/-! ## The main result -/

/-- The text of an integer is the numeral of its magnitude, behind a sign if it is negative. -/
theorem toString_eq_ofNat (n : Int) :
    toString n = if 0 ≤ n then (Numeral.ofNat n.natAbs).text
      else "-" ++ (Numeral.ofNat n.natAbs).text := by
  cases n with
  | ofNat k => rfl
  | negSucc k => rfl

/-- **Integers round-trip in decimal.**  A text of digits, of any length and also with zeros in
front, is one token.

* If the number that it denotes is less than `2 ^ 63`, the text is an expression with that number as
  its value, in every mode.  Both texts of the value are the digits without superfluous zeros.
* If the number is larger, the text is an error at its start in every mode.

Conversely, let an integer be greater than `-2 ^ 63` and less than `2 ^ 63`.  It is the value of the
numeral of its magnitude, or of the difference of zero and this numeral if it is negative; and both
texts of the value are that numeral, behind a sign if it is negative. -/
theorem literals_round_trip :
    (∀ s : Numeral,
      Token.tokenize s.text = .ok [⟨.integer, s.text, 0⟩] ∧
      (s.value ≤ 2 ^ 63 - 1 →
        Yields s.text (.leaf .integer (.int s.value) (some 0)) (.int s.value) ∧
        (Value.int s.value).echo = s.plain ∧ (Value.int s.value).text = s.plain) ∧
      (2 ^ 63 - 1 < s.value → ∀ (mode : Parser.Mode) (tracing : Bool),
        (Parser.parseSource { Parser.Settings.standard with tracing } mode s.text).tree =
          .error (.parse ⟨"64-bit integer", Text.inQuotes s.text, some 0, some ⟨1, 1⟩⟩))) ∧
    ∀ n : Int, -2 ^ 63 < n → n ≤ 2 ^ 63 - 1 →
      let s := Numeral.ofNat n.natAbs
      let text := if 0 ≤ n then s.text else "-" ++ s.text
      s.value = n.natAbs ∧ s.plain = s.text ∧
      (∃ node, Yields (if 0 ≤ n then s.text else "0 - " ++ s.text) node (.int n)) ∧
      (Value.int n).echo = text ∧ (Value.int n).text = text := by
  have hmax : Parser.maxInteger = 2 ^ 63 - 1 := by decide
  refine ⟨fun s => ⟨s.tokenize_text, fun h => ?_, fun h => ?_⟩, fun n hlow hhigh => ?_⟩
  · have hle : s.value ≤ Parser.maxInteger := by
      rw [hmax]
      omega
    exact ⟨Numeral.yields hle, s.toString_value, s.toString_value⟩
  · have hlt : Parser.maxInteger < s.value := by
      rw [hmax]
      omega
    exact Numeral.tree_of_lt hlt
  · have hle : n.natAbs ≤ Parser.maxInteger := by
      rw [hmax]
      omega
    refine ⟨Numeral.value_ofNat _, Numeral.plain_ofNat _, ?_, toString_eq_ofNat n,
      toString_eq_ofNat n⟩
    split
    · next hn =>
      have hyields := Numeral.yields (s := .ofNat n.natAbs) (by rwa [Numeral.value_ofNat])
      rw [Numeral.value_ofNat, Int.natAbs_of_nonneg hn] at hyields
      exact ⟨_, hyields⟩
    · next hn =>
      have hneg : -(n.natAbs : Int) = n := by omega
      have hyields := exists_yields_sub hle
      rwa [hneg] at hyields

/-- Zeros in front of the largest literal, one more than that, and a negative integer. -/
theorem literals_round_trip_bounds :
    let largest : Numeral :=
      ⟨"0009223372036854775807", by decide +kernel, List.all_eq_true.1 (by decide +kernel)⟩
    let beyond : Numeral :=
      ⟨"9223372036854775808", by decide +kernel, List.all_eq_true.1 (by decide +kernel)⟩
    largest.value = 9223372036854775807 ∧ largest.plain = "9223372036854775807" ∧
      Yields largest.text (.leaf .integer (.int 9223372036854775807) (some 0))
        (.int 9223372036854775807) ∧
      (Value.int 9223372036854775807).text = "9223372036854775807" ∧
      beyond.value = 9223372036854775808 ∧
      (Parser.parse .program beyond.text) = .error (.parse
        ⟨"64-bit integer", "\"9223372036854775808\"", some 0, some ⟨1, 1⟩⟩) ∧
      (∃ node, Yields "0 - 9223372036854775807" node (.int (-9223372036854775807))) ∧
      (Value.int (-9223372036854775807)).text = "-9223372036854775807" := by
  intro largest beyond
  have hlargest : largest.value = 9223372036854775807 := by decide +kernel
  have hplain : largest.plain = "9223372036854775807" := by decide +kernel
  have hbeyond : beyond.value = 9223372036854775808 := by decide +kernel
  obtain ⟨hyields, -, htext⟩ :=
    (literals_round_trip.1 largest).2.1 (by rw [hlargest]; decide)
  have herror := (literals_round_trip.1 beyond).2.2 (by rw [hbeyond]; decide) .program false
  obtain ⟨-, -, hdifference, -, hnegative⟩ :=
    literals_round_trip.2 (-9223372036854775807) (by decide) (by decide)
  rw [hlargest] at hyields htext
  exact ⟨hlargest, hplain, hyields, htext.trans hplain, hbeyond, herror, hdifference, hnegative⟩

end Juxta
