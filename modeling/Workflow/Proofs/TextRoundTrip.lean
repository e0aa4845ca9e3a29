import Workflow.Proofs.Likeness
import Workflow.Proofs.Nesting
import Workflow.Proofs.ScopeGraph

/-!
# A machine and its texts define each other

The texts of a machine that was built define the machine again, as long as its value nests no
deeper than a text may. Building sets no such limit, so there are machines whose texts are refused.

## Main definitions

* `Draft.Machine.nested`: a draft with a payload that nests as deep as one likes

## Main results

* `Draft.Machine.parse_texts`: both texts of a machine say its value, or nest too deep
* `Draft.Machine.text_round_trip`: the texts of a machine define it exactly within the limit
* `Draft.Machine.nested_text_refused`: there are machines whose texts are refused
-/

namespace Workflow

/-! ### Documents -/

namespace Document.Machine

/-- A text that nests too deep says no machine. -/
theorem ofText_layout_tooDeep {layout : Json.Layout} (h : layout.Spaced) {value : Json}
    (hd : value.Distinct) (hn : Written.maxDepth < value.nesting) :
    ∃ problem, ofText (String.ofList (value.text layout 0)) = .error problem := by
  cases hm : ofText (String.ofList (value.text layout 0)) with
  | error problem => exact ⟨problem, rfl⟩
  | ok machine =>
    obtain ⟨said, hp⟩ := exists_parse_of_ofText hm
    rw [Json.parse_layout h hd, if_neg (Nat.not_le.mpr hn)] at hp
    cases hp

end Document.Machine

/-! ### Machines -/

namespace Draft.Machine

theorem ofText_layout {layout : Json.Layout} (h : layout.Spaced) {m : Workflow.Machine}
    (hm : m.toDraft.build = .ok m) (hd : m.toJson.Distinct)
    (hn : m.toJson.nesting ≤ Written.maxDepth) :
    ofText (String.ofList (m.toJson.text layout 0)) = .ok m.toDraft := by
  have read : Document.Machine.ofWritten Document.endOfArray m.toJson.written = .ok m.toDocument :=
    m.ofJson_toJson hm hd
  rw [ofText, Document.Machine.ofText_layout h hn, read]
  exact m.draft_toDocument hm

theorem ofText_layout_tooDeep {layout : Json.Layout} (h : layout.Spaced) {value : Json}
    (hd : value.Distinct) (hn : Written.maxDepth < value.nesting) :
    ∃ reason, ofText (String.ofList (value.text layout 0)) = .error reason := by
  obtain ⟨problem, hp⟩ := Document.Machine.ofText_layout_tooDeep h hd hn
  exact ⟨.shape problem, by rw [ofText, hp, ofReading]⟩

/-- The two texts of a machine are layouts of its value. -/
theorem exists_layout {m : Workflow.Machine} {text : String} (h : text ∈ [m.text, m.prettyText]) :
    ∃ layout : Json.Layout, layout.Spaced ∧ text = String.ofList (m.toJson.text layout 0) := by
  rcases List.mem_pair.mp h with rfl | rfl
  · exact ⟨.compact, Json.Layout.spaced_compact, rfl⟩
  · exact ⟨.pretty, Json.Layout.spaced_pretty, rfl⟩

/-- **The two texts of a machine and its value are one document.** Either text is parsed to the
value itself, with the members of every object in their order, unless the value nests deeper than
a text may. -/
theorem parse_texts {b : Machine} (hb : b.Distinct) {m : Workflow.Machine} (h : b.build = .ok m)
    {text : String} (ht : text ∈ [m.text, m.prettyText]) :
    Json.parse text =
      if m.toJson.nesting ≤ Written.maxDepth then .ok m.toJson else .error .tooDeep := by
  obtain ⟨layout, spaced, rfl⟩ := exists_layout ht
  exact Json.parse_layout spaced (distinct_toJson hb h)

/-- **The texts of a machine define the machine exactly when its value nests no deeper than a text
may**: within the limit both are read as drafts that build to the very machine, and beyond it both
are refused. -/
theorem text_round_trip {b : Machine} (hb : b.Distinct) {m : Workflow.Machine}
    (h : b.build = .ok m) {text : String} (ht : text ∈ [m.text, m.prettyText]) :
    (m.toJson.nesting ≤ Written.maxDepth →
      ∃ b', ofText text = .ok b' ∧ b'.build = .ok m ∧ alike m m = true) ∧
    (Written.maxDepth < m.toJson.nesting → ∃ reason, ofText text = .error reason) := by
  have again := build_toDraft h
  have distinct := distinct_toJson hb h
  obtain ⟨layout, spaced, rfl⟩ := exists_layout ht
  constructor
  · intro fits
    exact ⟨m.toDraft, ofText_layout spaced again distinct fits, again,
      m.alike_self again distinct⟩
  · exact ofText_layout_tooDeep spaced distinct

/-! ### A machine that nests too deep -/

/-- Arrays around one another, and an empty one inside. -/
def arrays : ℕ → Json
  | 0 => .array []
  | levels + 1 => .array [arrays levels]

theorem nesting_arrays (levels : ℕ) : (arrays levels).nesting = levels + 1 := by
  induction levels with
  | zero => rfl
  | succ levels ih => simp [arrays, Json.nesting, Json.itemsNesting, ih]

theorem distinct_arrays (levels : ℕ) : (arrays levels).Distinct := by
  induction levels with
  | zero => trivial
  | succ levels ih => exact ⟨ih, trivial⟩

/-- A draft with arrays around one another in the parameters of its state. -/
def nested (levels : ℕ) : Machine where
  startAt := some "A"
  states := [("A", .pass {
    parameters := some (.object [("a", arrays levels)]),
    transition := some .finish })]

/-- The machine that `nested` builds. -/
def nestedMachine (levels : ℕ) : Workflow.Machine where
  comment := none
  startAt := "A"
  timeoutSeconds := none
  version := none
  states := [("A", .pass {
    comment := none
    inputPath := none
    outputPath := none
    result := none
    parameters := some [("a", arrays levels)]
    resultPath := none
    transition := .finish })]

theorem build_nested (levels : ℕ) : (nested levels).build = .ok (nestedMachine levels) := by
  have sound : Scope.Sound Workflow.State.successors Scope.leaves "A"
      (nestedMachine levels).states :=
    .of_leaves List.mem_cons_self (List.forall_mem_singleton.mpr nofun)
      (List.forall_mem_singleton.mpr rfl)
  exact build_eq_ok.mpr
    ⟨nofun, "A", by decide, rfl, _, rfl, Scope.check_eq_ok.mpr sound, rfl⟩

theorem distinct_nested (levels : ℕ) : (nested levels).Distinct := by
  have payload : (Json.object [("a", arrays levels)]).Distinct :=
    ⟨by simp, distinct_arrays levels, trivial⟩
  refine ⟨by simp [nested], ?_⟩
  simpa [nested, State.DistinctStates, State.Distinct] using payload

/-- The value of the machine, its states, the state and its parameters are objects. -/
theorem nesting_nestedMachine (levels : ℕ) :
    (nestedMachine levels).toJson.nesting = levels + 5 := by
  have value : (nestedMachine levels).toJson = .object [("StartAt", .string "A"),
      ("States", .object [("A", .object [("Type", .string "Pass"),
        ("Parameters", .object [("a", arrays levels)]), ("End", .bool true)])])] := rfl
  simp [value, Json.nesting, Json.membersNesting, nesting_arrays]

/-- With as many levels as a text may have, the two texts say the value. -/
theorem parse_texts_nested :
    (nested 122).Distinct ∧ (nested 122).build = .ok (nestedMachine 122) ∧
      Json.parse (nestedMachine 122).text = .ok (nestedMachine 122).toJson ∧
      Json.parse (nestedMachine 122).prettyText = .ok (nestedMachine 122).toJson := by
  have said : ∀ text ∈ [(nestedMachine 122).text, (nestedMachine 122).prettyText],
      Json.parse text = .ok (nestedMachine 122).toJson := by
    intro text ht
    rw [parse_texts (distinct_nested 122) (build_nested 122) ht, if_pos]
    rw [nesting_nestedMachine]
    decide
  exact ⟨distinct_nested 122, build_nested 122, said _ (by simp), said _ (by simp)⟩

/-- One level below the limit the texts are read, and one above it they are refused. -/
theorem text_round_trip_nested :
    (nested 122).Distinct ∧ (nested 122).build = .ok (nestedMachine 122) ∧
      (∃ b', ofText (nestedMachine 122).text = .ok b' ∧ b'.build = .ok (nestedMachine 122) ∧
        alike (nestedMachine 122) (nestedMachine 122) = true) ∧
      (nested 123).Distinct ∧ (nested 123).build = .ok (nestedMachine 123) ∧
      ∃ reason, ofText (nestedMachine 123).prettyText = .error reason := by
  refine ⟨distinct_nested 122, build_nested 122, ?_, distinct_nested 123, build_nested 123, ?_⟩
  · refine (text_round_trip (distinct_nested 122) (build_nested 122) (List.mem_cons_self ..)).1 ?_
    rw [nesting_nestedMachine]
    decide
  · refine (text_round_trip (distinct_nested 123) (build_nested 123) (by simp)).2 ?_
    rw [nesting_nestedMachine]
    decide

/-- Not every machine that is built is read back from its text. -/
theorem nested_text_refused : ¬∀ (b : Machine) (m : Workflow.Machine), b.Distinct →
    b.build = .ok m → ∀ text ∈ [m.text, m.prettyText],
      ∃ b', ofText text = .ok b' ∧ b'.build = .ok m ∧ alike m m = true := by
  intro all
  obtain ⟨b', read, -⟩ := all (nested 123) (nestedMachine 123) (distinct_nested 123)
    (build_nested 123) (nestedMachine 123).text (List.mem_cons_self ..)
  have deep : Written.maxDepth < (nestedMachine 123).toJson.nesting := by
    rw [nesting_nestedMachine]
    decide
  obtain ⟨reason, refused⟩ := ofText_layout_tooDeep Json.Layout.spaced_compact
    (distinct_toJson (distinct_nested 123) (build_nested 123)) deep
  cases read.symm.trans refused

end Draft.Machine

end Workflow
