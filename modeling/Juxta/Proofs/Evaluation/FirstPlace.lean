import Juxta.Proofs.Evaluation.Settling
import Juxta.Proofs.Text.Position

/-!
# The first place that fits

An error is made without a place.  A failure is offered the starts of the nodes on its path, from
the node that raises it outward, and a parse error is offered the sources in which it is located,
one after another.  An offer fits if the offset is not beyond the end of the text.  The first that
fits gives the error its place, and no later one changes it; if none fits, the error has no place.

Nothing is assumed of the tree.  In one that was built by hand, or that was parsed from another
source than the frame has, a failure can so get the place of a node around the one that raised it.

## What is here

* `PlacedAlong` — the place of a path in a source; `placedAlong_placeOn` — every failing path has
  it.
* `FailsAlong.exists_inner` — each node on a failing path fails along the part up to it.
* `PlacedAmong` — the position of an offset among sources; `ParseError.foldl_locate` — the effect of
  locating a parse error in several sources.
* `first_fit_places` — the main result, for failures and for parse errors.
-/

set_option autoImplicit false
namespace Juxta

variable {frame : Nat} {n c : Node} {m m₁ m' : Machine} {cause : Cause} {source : Option String}
  {path inner outer : List Node}

/-- Every offset that is not beyond the end has a position, also one before the text. -/
theorem Position.exists_ofOffset? {text : String} {offset : Int} (h : offset ≤ text.length) :
    ∃ q, ofOffset? text offset = some q := by
  refine Option.ne_none_iff_exists'.1 fun hnone => ?_
  exact absurd (ofOffset?_eq_none_iff.1 hnone) (Int.not_lt.2 h)

/-! ## Failures -/

/-- The place is that of the path in the source.  The first node that starts, and not beyond the end
of the source, is placed there; the place is unknown exactly if there is no such node. -/
structure PlacedAlong (source : Option String) (path : List Node) (place : Place) : Prop where
  first : ∀ (text : String) (before : List Node) (n : Node) (after : List Node) (start : Int),
    source = some text → path = before ++ n :: after →
    (∀ b ∈ before, ∀ s ∈ b.start, text.length < s) → n.start = some start → start ≤ text.length →
    ∃ q, Position.ofOffset? text start = some q ∧ place = .ofPosition q
  unknown : place = .unknown ↔ ∀ text ∈ source, ∀ n ∈ path, ∀ s ∈ n.start, text.length < s

theorem Node.position?_eq_none_iff :
    n.position? source = none ↔ ∀ text ∈ source, ∀ s ∈ n.start, text.length < s := by
  rw [Node.position?]
  cases source with
  | none => simp
  | some text =>
    cases n.start with
    | none => simp
    | some s => simp [Position.ofOffset?_eq_none_iff]

theorem placeOn_of_first {n : Node} {before after : List Node} {q : Position}
    (hbefore : ∀ b ∈ before, b.position? source = none) (hn : n.position? source = some q) :
    placeOn source (before ++ n :: after) = .ofPosition q := by
  rw [placeOn, List.findSome?_append, List.findSome?_eq_none_iff.2 hbefore, Option.none_or,
    List.findSome?_cons, hn]
  rfl

theorem placeOn_eq_unknown_iff :
    placeOn source path = .unknown ↔ ∀ n ∈ path, n.position? source = none := by
  rw [placeOn, ← List.findSome?_eq_none_iff]
  cases path.findSome? (·.position? source) with
  | none => simp
  | some q => simp [Place.ofPosition, Place.unknown]

/-- **Every failing path is placed by the first of its nodes that fits.** -/
theorem placedAlong_placeOn (source : Option String) (path : List Node) :
    PlacedAlong source path (placeOn source path) where
  first := by
    rintro text before n after start rfl rfl hbefore hstart hle
    obtain ⟨q, hq⟩ := Position.exists_ofOffset? hle
    refine ⟨q, hq, placeOn_of_first (fun b hb => ?_) ?_⟩
    · exact Node.position?_eq_none_iff.2 fun _ htext => Option.some.inj htext ▸ hbefore b hb
    · rw [Node.position?, hstart]
      exact hq
  unknown := by
    rw [placeOn_eq_unknown_iff]
    exact ⟨fun h text htext n hn => Node.position?_eq_none_iff.1 (h n hn) text htext,
      fun h n hn => Node.position?_eq_none_iff.2 fun text htext => h text htext n hn⟩

/-- A path that has a place keeps it when nodes come around. -/
theorem placeOn_append (h : placeOn source inner ≠ .unknown) (outer : List Node) :
    placeOn source (inner ++ outer) = placeOn source inner := by
  rw [placeOn] at h
  rw [placeOn, placeOn, List.findSome?_append]
  cases hinner : inner.findSome? (·.position? source) with
  | none =>
    rw [hinner] at h
    exact absurd rfl h
  | some q => rfl

/-- **Each node on a failing path fails along the part of the path up to it**, with the place of
that part, and leaves the machine that the whole tree leaves. -/
theorem FailsAlong.exists_inner {g : Failure} (h : FailsAlong frame n m path cause)
    (heval : n.eval frame m = .error (.failure g) m') (hpath : path = inner ++ outer)
    (hne : inner ≠ []) :
    ∃ c m₁, inner.getLast? = some c ∧ FailsAlong frame c m₁ inner cause ∧
      c.eval frame m₁ = .error (.failure ⟨cause, placeOn (m.env.source? frame) inner⟩) m' := by
  induction h generalizing g outer with
  | @here n m cause hraises =>
    have hwhole : FailsAlong frame n m [n] cause := .here hraises
    obtain ⟨m₂, hn⟩ := hwhole.eval
    obtain ⟨rfl, rfl⟩ : inner = [n] ∧ outer = [] := by
      rcases List.append_eq_singleton_iff.1 hpath.symm with ⟨hnil, -⟩ | hsingle
      · exact absurd hnil hne
      · exact hsingle
    obtain ⟨-, rfl⟩ := EStateM.Result.error.inj (hn.symm.trans heval)
    exact ⟨n, m, rfl, hwhole, hn⟩
  | @within n c m m₁ path cause hcall hc ih =>
    have hwhole : FailsAlong frame n m (path ++ [n]) cause := .within hcall hc
    obtain ⟨m₂, hn⟩ := hwhole.eval
    obtain ⟨m₃, hceval⟩ := hc.eval
    obtain ⟨-, rfl⟩ := EStateM.Result.error.inj (hn.symm.trans heval)
    obtain ⟨-, rfl⟩ := EStateM.Result.error.inj ((hcall.eval hceval).symm.trans hn)
    rcases List.eq_nil_or_concat outer with rfl | ⟨rest, last, rfl⟩
    · rw [List.append_nil] at hpath
      subst hpath
      exact ⟨n, m, List.getLast?_concat, hwhole, hn⟩
    · rw [List.concat_eq_append, ← List.append_assoc] at hpath
      have hinner := ih hceval (List.append_inj_left' hpath rfl)
      rwa [hcall.source?_eq] at hinner

/-- A failure that has a line passes through the nodes around unchanged. -/
theorem Eval.locating_of_line {α : Type} {act : Eval α} {g : Failure}
    (hact : act m = .error (.failure g) m') (hline : g.place.line ≠ none) (start : Option Int) :
    Eval.locating frame start act m = .error (.failure g) m' :=
  Eval.locating_eq_failure_iff.2 ⟨g, hact, (Failure.isSettled_of_line hline start).symm⟩

/-! ## Parse errors -/

/-- The position is that of the offset among the sources.  The first source that is long enough for
the offset gives the position; there is none exactly if there is no such source, or no offset. -/
structure PlacedAmong (sources : List String) (offset : Option Int) (position : Option Position) :
    Prop where
  first : ∀ (o : Int) (before : List String) (text : String) (after : List String),
    offset = some o → sources = before ++ text :: after → (∀ t ∈ before, t.length < o) →
    o ≤ text.length → ∃ q, Position.ofOffset? text o = some q ∧ position = some q
  unknown : position = none ↔ ∀ o ∈ offset, ∀ text ∈ sources, text.length < o

/-- The position of an offset in the first source that is long enough. -/
def firstPosition (sources : List String) (offset : Option Int) : Option Position := do
  let o ← offset
  sources.findSome? (Position.ofOffset? · o)

theorem placedAmong_firstPosition (sources : List String) (offset : Option Int) :
    PlacedAmong sources offset (firstPosition sources offset) where
  first := by
    rintro o before text after rfl rfl hbefore hle
    obtain ⟨q, hq⟩ := Position.exists_ofOffset? hle
    have hnone : before.findSome? (Position.ofOffset? · o) = none :=
      List.findSome?_eq_none_iff.2 fun t ht => Position.ofOffset?_eq_none_iff.2 (hbefore t ht)
    refine ⟨q, hq, ?_⟩
    show (before ++ text :: after).findSome? (Position.ofOffset? · o) = some q
    rw [List.findSome?_append, hnone, Option.none_or, List.findSome?_cons, hq]
  unknown := by
    cases offset with
    | none => simp [firstPosition]
    | some o => simp [firstPosition, Position.ofOffset?_eq_none_iff]

/-- **To locate a parse error in some sources is to find the first that is long enough**, unless it
has a position before. -/
theorem ParseError.foldl_locate (e : ParseError) (sources : List String) :
    sources.foldl locate e =
      { e with position := e.position.or (firstPosition sources e.offset) } := by
  obtain ⟨expected, found, offset, position⟩ := e
  induction sources generalizing position with
  | nil => cases offset <;> cases position <;> rfl
  | cons text sources ih =>
    rw [List.foldl_cons, locate]
    cases position with
    | some p => exact ih (some p)
    | none =>
      cases offset with
      | none => exact ih none
      | some o =>
        refine (ih (Position.ofOffset? text o)).trans ?_
        simp only [firstPosition, Option.bind_eq_bind, Option.bind_some, List.findSome?_cons]
        cases Position.ofOffset? text o <;> rfl

/-! ## The main result -/

/-- **The first start that fits places an error, and then the place stays.**  Where a tree fails, it
has one failing path, and the failure is placed by the first node on it that has a start which is
not beyond the end of the source of the frame; without such a node, or without a source, it stays
unplaced.  On the way out each node on the path fails with the place of the path up to it, and that
is the place in the end as soon as it is known: whatever fails with a line passes unchanged through
the nodes around.  A parse error that is located in some sources gets its position from the first
that is long enough for its offset, and further sources do not change it. -/
theorem first_fit_places :
    (∀ (frame : Nat) (n : Node) (m m' : Machine) (g : Failure),
      n.eval frame m = .error (.failure g) m' →
      ∃ path, FailsAlong frame n m path g.cause ∧
        (∀ path' cause', FailsAlong frame n m path' cause' → path' = path ∧ cause' = g.cause) ∧
        PlacedAlong (m.env.source? frame) path g.place ∧
        ∀ inner outer, path = inner ++ outer → inner ≠ [] →
          ∃ c m₁ place, inner.getLast? = some c ∧ FailsAlong frame c m₁ inner g.cause ∧
            c.eval frame m₁ = .error (.failure ⟨g.cause, place⟩) m' ∧
            PlacedAlong (m.env.source? frame) inner place ∧
            (place ≠ .unknown → place = g.place)) ∧
    (∀ (α : Type) (act : Eval α) (frame : Nat) (start : Option Int) (m m' : Machine) (g : Failure),
      act m = .error (.failure g) m' → g.place.line ≠ none →
      Eval.locating frame start act m = .error (.failure g) m') ∧
    ∀ (e : ParseError) (sources : List String), e.position = none →
      let located := sources.foldl ParseError.locate e
      located = { e with position := located.position } ∧
        PlacedAmong sources e.offset located.position ∧
        (located.position ≠ none →
          ∀ more : List String, more.foldl ParseError.locate located = located) := by
  refine ⟨fun frame n m m' g h => ?_, fun α act frame start m m' g hact hline =>
    Eval.locating_of_line hact hline start, fun e sources hposition => ?_⟩
  · obtain ⟨path, hpath, hplace⟩ := exists_failsAlong h
    refine ⟨path, hpath, fun path' cause' hpath' => hpath'.unique hpath,
      hplace ▸ placedAlong_placeOn _ path, fun inner outer hsplit hne => ?_⟩
    obtain ⟨c, m₁, hlast, hinner, hc⟩ := hpath.exists_inner h hsplit hne
    refine ⟨c, m₁, _, hlast, hinner, hc, placedAlong_placeOn _ inner, fun hknown => ?_⟩
    rw [hplace, hsplit, placeOn_append hknown]
  · dsimp only
    rw [e.foldl_locate, hposition, Option.none_or]
    refine ⟨rfl, placedAmong_firstPosition sources e.offset, fun hknown more => ?_⟩
    rw [ParseError.foldl_locate]
    obtain ⟨q, hq⟩ := Option.ne_none_iff_exists'.1 hknown
    dsimp only at hq ⊢
    rw [hq]
    rfl

/-- The node that divides by zero starts beyond the end of the source, the one around it before its
start; and the second of three sources is the first that is long enough for a parse error. -/
theorem first_fit_places_before :
    let m : Machine := .ofEnvironment (Builtins.standard.environment (some "ab\ncd"))
    let int (n : Int) (start : Option Int) : Node := .leaf .integer (.int n) start
    let slash : Node := .leaf .operator (.str "/") none
    let quotient : Node := .branch .binary [int 1 none, slash, int 0 none] (some 90)
    let group : Node := .branch .parenthesis [quotient] (some (-2))
    let tree : Node := .branch .expressions [int 7 (some 1), group] (some 4)
    let g : Failure := ⟨.zeroDivision, .ofPosition ⟨1, -1⟩⟩
    let e : ParseError := ⟨"value", "end of input", some 3, none⟩
    let located : ParseError := ⟨"value", "end of input", some 3, some ⟨2, 2⟩⟩
    let sources := ["f", "g\nh", "k\n\n"]
    tree.eval 0 m = .error (.failure g) m ∧
      FailsAlong 0 tree m [quotient, group, tree] .zeroDivision ∧
      PlacedAlong (m.env.source? 0) [quotient, group, tree] g.place ∧
      Eval.locating 0 tree.start (group.eval 0) m = .error (.failure g) m ∧
      sources.foldl ParseError.locate e = located ∧
      PlacedAmong sources e.offset located.position ∧
      ["x\ny\nz"].foldl ParseError.locate located = located := by
  intro m int slash quotient group tree g e located sources
  have htree : tree.eval 0 m = .error (.failure g) m := rfl
  have hgroup : group.eval 0 m = .error (.failure g) m := rfl
  have hlocated : sources.foldl ParseError.locate e = located := by decide
  have hdivides : Raises 0 quotient m .zeroDivision :=
    .operator (show slash.leafValue .operator = .ok (.str "/") from rfl) (by decide) rfl rfl rfl
  have hcall : Calls 0 tree m group m :=
    .part (by decide) (show _ = [int 7 (some 1)] ++ group :: [] from rfl) rfl
      (fun heq => absurd heq (by decide))
  have hpath : FailsAlong 0 tree m [quotient, group, tree] .zeroDivision :=
    .within hcall (.within .inner (.here hdivides))
  obtain ⟨hfailures, hlines, herrors⟩ := first_fit_places
  obtain ⟨path, -, hunique, hplaced, -⟩ := hfailures 0 tree m m g htree
  obtain ⟨-, hamong, hkeeps⟩ := herrors e sources rfl
  rw [hlocated] at hamong hkeeps
  refine ⟨htree, hpath, ?_, hlines Value _ 0 tree.start m m g hgroup nofun, hlocated, hamong,
    hkeeps nofun _⟩
  rwa [(hunique _ _ hpath).1]

end Juxta
