import Workflow.Document.Decode
import Workflow.Proofs.MergedFields
import Workflow.Proofs.Nesting

/-!
# A text and its value define the same draft

A text is read as it streams, with every definition of a repeated name looked at, and a value has
its repeated keys merged before anything is read. Where a text can be read, its value is read as the
same draft. The converse holds where no key is repeated: of a repeated key, the value has lost the
definitions that a text is refused for.

## Main results

* `State.carries_read`, `Machine.carries_ofWritten`: states and machines are read alike when
  repeated keys are merged
* `Draft.Machine.ofText_agrees_ofJson`: a text and its value define the same draft
-/

namespace Workflow

namespace Document

open Written (Merged)
open Json (Matched)

variable {δ : Type} {levels : ℕ}

/-! ### States -/

/-- The kind of a state is never read from an array or an object. -/
theorem carries_readKind (nested : Bool) :
    Reader.Carries levels (readKind nested) (readKind nested) :=
  carries_of_simple nofun nofun

theorem carries_pass : Reader.Carries levels pass pass := by
  intro w w' u hm h
  obtain ⟨value, hv, hu⟩ := map_eq_ok.mp h
  exact map_eq_ok.mpr ⟨value, carries_anything w w' value hm hv, hu⟩

theorem carries_kindOfMembers {nested : Bool} {seen : Option StateKind} {kind : StateKind}
    {members members' : List (String × Written)} (hm : Matched (Merged levels) members members')
    (h : kindOfMembers nested seen members none = .ok kind) :
    kindOfMembers nested seen members' none = .ok kind := by
  induction hm generalizing seen with
  | nil => exact h
  | @cons m m' ms ms' hmm _ ih =>
    obtain ⟨key, w⟩ := m
    obtain ⟨_, w'⟩ := m'
    obtain ⟨rfl, left⟩ := hmm
    unfold kindOfMembers at h ⊢
    split at h
    · next hk =>
      rw [if_pos hk]
      split at h
      · cases h
      · next first =>
        rw [if_neg first]
        obtain ⟨kind', hkind, hx⟩ := bind_eq_ok.mp h
        exact bind_eq_ok.mpr ⟨kind', carries_readKind nested w w' kind' left hkind, ih hx⟩
    · next hk =>
      rw [if_neg hk]
      obtain ⟨passed, hp, hx⟩ := bind_eq_ok.mp h
      exact bind_eq_ok.mpr ⟨passed, carries_pass w w' passed left hp, ih hx⟩

/-- The kind of a state is given once, so no key is repeated when no other one is. -/
theorem nodup_of_kindOfMembers {nested : Bool} {seen : Option StateKind} {kind : StateKind}
    {members : List (String × Written)} (h : kindOfMembers nested seen members none = .ok kind)
    (hn : ((members.filter fun m => m.1 ≠ kindKey).map Prod.fst).Nodup) :
    (members.map Prod.fst).Nodup := by
  induction members generalizing seen with
  | nil => exact List.nodup_nil
  | cons m members ih =>
    obtain ⟨key, w⟩ := m
    unfold kindOfMembers at h
    rw [List.map_cons, List.nodup_cons]
    by_cases hk : key = kindKey
    · rw [if_pos hk] at h
      split at h
      · cases h
      · obtain ⟨kind', -, hx⟩ := bind_eq_ok.mp h
        rw [List.filter_cons_of_neg (by simpa using hk)] at hn
        exact ⟨hk ▸ (kindOfMembers_some.mp hx).2.1, ih hx hn⟩
    · rw [if_neg hk] at h
      obtain ⟨passed, -, hx⟩ := bind_eq_ok.mp h
      rw [List.filter_cons_of_pos (by simpa using hk), List.map_cons, List.nodup_cons] at hn
      -- the kind is not among the other fields, so a repetition would be one of them
      refine ⟨fun again => hn.1 ?_, ih hx hn.2⟩
      obtain ⟨m, hm, he⟩ := List.mem_map.mp again
      exact List.mem_map.mpr ⟨m, List.mem_filter.mpr ⟨hm, by simpa [he] using hk⟩, he⟩

/-- What is left of the fields of a state. -/
inductive Body.Merged (levels : ℕ) : Body → Body → Prop
  | members {ms ms' : List (String × Written)} (h : Matched (Written.Merged levels) ms ms') :
    Body.Merged levels (.members ms) (.members ms')
  | items {is is' : List Written} (h : List.Forall₂ (Written.Merged levels) is is') :
    Body.Merged levels (.items is) (.items is')

/-- No key of the fields of a state is repeated. -/
def Body.Nodup : Body → Prop
  | .members ms => (ms.map Prod.fst).Nodup
  | .items _ => True

theorem carries_body {nested : Bool} {w w' : Written} {kind : StateKind} {b : Body}
    (hm : Merged (levels + 1) w w') (h : body nested w = .ok (kind, b)) (hb : b.Nodup) :
    ∃ b', body nested w' = .ok (kind, b') ∧ Body.Merged levels b b' := by
  cases w with
  | object members fault =>
    obtain ⟨rfl, members', rfl, left⟩ := hm.object
    obtain ⟨kind', hk, h⟩ := bind_eq_ok.mp h
    cases h
    -- the keys are distinct, so merging the members leaves them as they are
    rw [Json.merge_of_nodup (nodup_of_kindOfMembers hk hb)] at left
    refine ⟨_, ?_, .members (left.filter fun key => key ≠ kindKey)⟩
    exact bind_eq_ok.mpr ⟨kind, carries_kindOfMembers left hk, rfl⟩
  | array items fault =>
    obtain ⟨rfl, items', rfl, left⟩ := Written.merged_array.mp hm
    cases left with
    | nil => cases h
    | cons first rest =>
      obtain ⟨kind', hk, h⟩ := bind_eq_ok.mp h
      obtain ⟨passed, hp, h⟩ := bind_eq_ok.mp h
      cases h
      refine ⟨_, bind_eq_ok.mpr ⟨kind, carries_readKind nested _ _ kind first hk, ?_⟩,
        .items rest⟩
      have whole := Written.merged_array.mpr ⟨rfl, _, rfl, rest⟩
      exact bind_eq_ok.mpr ⟨passed, carries_pass _ _ passed whole hp, rfl⟩
  | _ => cases h

theorem Shape.Carries.ofBody {shape shape' : Shape δ} (hs : Shape.Carries levels shape shape')
    {b b' : Body} (hb : Body.Merged levels b b') {x : δ} (h : shape.ofBody b = .ok x) :
    shape'.ofBody b' = .ok x := by
  cases hb with
  | members left =>
    refine hs.ofMembers ?_ h
    rw [Json.merge_of_nodup (nodup_of_readMembers h).1]
    exact left
  | items left => exact hs.ofItems shape.closed_noExcess shape'.closed_noExcess left h

theorem Shape.Carries.map_ofBody {ε : Type} {shape shape' : Shape δ}
    (hs : Shape.Carries levels shape shape') {b b' : Body} (hb : Body.Merged levels b b')
    {f : δ → ε} {x : ε} (h : (shape.ofBody b).map f = .ok x) :
    (shape'.ofBody b').map f = .ok x := by
  obtain ⟨d, hd, hx⟩ := map_eq_ok.mp h
  exact map_eq_ok.mpr ⟨d, hs.ofBody hb hd, hx⟩

theorem Shape.nodup_of_ofBody {shape : Shape δ} {b : Body} {x : δ} (h : shape.ofBody b = .ok x) :
    b.Nodup := by
  cases b with
  | members ms => exact (nodup_of_readMembers h).1
  | items is => trivial

namespace State

theorem nodup_of_ofBody {read : Written → Reading State} {b : Body} {kind : StateKind} {s : State}
    (h : State.ofBody read b kind = .ok s) : b.Nodup := by
  cases kind <;>
  · obtain ⟨d, hd, -⟩ := map_eq_ok.mp h
    exact Shape.nodup_of_ofBody hd

theorem carries_ofBody {read read' : Written → Reading State}
    (hr : Reader.Carries levels read read') {b b' : Body} (hb : Body.Merged levels b b')
    {kind : StateKind} {s : State} (h : State.ofBody read b kind = .ok s) :
    State.ofBody read' b' kind = .ok s := by
  cases kind with
  | task => exact (taskShape_carries levels).map_ofBody hb h
  | pass => exact (passShape_carries levels).map_ofBody hb h
  | wait => exact (waitShape_carries levels).map_ofBody hb h
  | choice => exact (choiceShape_carries levels).map_ofBody hb h
  | succeed => exact (succeedShape_carries levels).map_ofBody hb h
  | fail => exact (failShape_carries levels).map_ofBody hb h
  -- the states of branches are read by the reader that was passed on
  | parallel => exact (parallelShape_carries hr).map_ofBody hb h

/-- **A state is read from what is left as it is read from what is written.** The readers have
bounds of their own: nothing was read beyond the first, and nothing is left beyond the second. -/
theorem carries_read (bound : ℕ) (nested : Bool) (levels : ℕ) :
    Reader.Carries levels (State.read nested bound) (State.read nested levels) := by
  -- each state inside a branch is one level further down in the value and in both bounds
  induction bound generalizing nested levels with
  | zero =>
    intro w w' s hm h
    cases h
  | succ bound ih =>
    intro w w' s hm h
    obtain ⟨below, rfl⟩ := hm.exists_succ
    obtain ⟨⟨kind, b⟩, hb, hs⟩ := bind_eq_ok.mp h
    obtain ⟨b', hb', left⟩ := carries_body hm hb (nodup_of_ofBody hs)
    exact bind_eq_ok.mpr ⟨(kind, b'), hb', carries_ofBody (ih true below) left hs⟩

theorem carries_ofWritten : Reader.Carries levels State.ofWritten State.ofWritten := by
  rintro w w' s ⟨value, hv, he, -⟩ h
  exact carries_read w.height false w'.height w w' s ⟨value, hv, he, le_rfl⟩ h

end State

/-! ### Machines -/

theorem closed_endOfArray : Closed endOfArray := by
  intro items
  constructor
  · exact fun h => (endOfArray_eq_ok h).1
  · rintro rfl
    rfl

theorem closed_endOfValue (fields : ℕ) : Closed (endOfValue fields) := by
  intro items
  cases items with
  | nil => exact iff_of_true rfl rfl
  | cons item items => exact iff_of_false nofun nofun

namespace Machine

/-- **A machine is read from what is left as it is read from what is written.** -/
theorem carries_ofWritten {excess excess' : List Written → Option Json.Fault → Reading Unit}
    (he : Closed excess) (he' : Closed excess') :
    Reader.Carries levels (ofWritten excess) (ofWritten excess') := by
  intro w w' x hm h
  obtain ⟨below, rfl⟩ := hm.exists_succ
  have shape : Shape.Carries below (machineShape State.ofWritten) (machineShape State.ofWritten) :=
    machineShape_carries State.carries_ofWritten
  cases w with
  | object members fault =>
    obtain ⟨rfl, members', rfl, left⟩ := hm.object
    exact shape.ofMembers left h
  | array items fault =>
    obtain ⟨rfl, items', rfl, left⟩ := Written.merged_array.mp hm
    exact shape.ofItems he he' left h
  | _ => cases h

variable {text : String} {m : Machine}

/-- What a text defines, its value defines, too. -/
theorem exists_ofJson_of_ofText (h : ofText text = .ok m) :
    ∃ value, Json.parse text = .ok value ∧ ofJson value = .ok m := by
  obtain ⟨value, hv⟩ := exists_parse_of_ofText h
  have said := (Json.parse_eq_ok.mp hv).1
  refine ⟨value, hv, ?_⟩
  exact carries_ofWritten closed_endOfArray (closed_endOfValue _) _ _ m ⟨value, said, rfl, le_rfl⟩
    (ofText_eq_ok.mp h).1

/-- Where a text repeats no key, it defines what its value defines. -/
theorem ofText_of_ofJson (hd : (Written.ofText text).1.Distinct) {value : Json}
    (hv : Json.parse text = .ok value) (h : ofJson value = .ok m) : ofText text = .ok m := by
  obtain ⟨said, finished⟩ := Json.parse_eq_ok.mp hv
  have same := hd.eq_written said
  rw [ofJson, ← same] at h
  refine ofText_eq_ok.mpr ⟨?_, finished⟩
  exact carries_ofWritten (closed_endOfValue _) closed_endOfArray _ _ m
    ⟨value, said, same, le_rfl⟩ h

end Machine

end Document

namespace Draft.Machine

/-- The text of a value defines what is read from the value as it is written. -/
theorem ofText_compact {value : Json} (fits : value.nesting ≤ Written.maxDepth) :
    ofText value.compact =
      ofReading (Document.Machine.ofWritten Document.endOfArray value.written) :=
  congrArg ofReading (Document.Machine.ofText_layout Json.Layout.spaced_compact fits)

/-- **A text and its value define the same draft.** What is read from a text is read from the value
that it says, whatever keys it repeats; and where no object repeats a key, what is read from the
value is read from the text. -/
theorem ofText_agrees_ofJson (text : String) :
    (∀ b, ofText text = .ok b → ∃ value, Json.parse text = .ok value ∧ ofJson value = .ok b) ∧
    ((Written.ofText text).1.Distinct →
      ∀ value b, Json.parse text = .ok value → ofJson value = .ok b → ofText text = .ok b) := by
  constructor
  · intro b h
    obtain ⟨document, hd, hb⟩ := ofReading_eq_ok.mp h
    obtain ⟨value, hv, hj⟩ := Document.Machine.exists_ofJson_of_ofText hd
    exact ⟨value, hv, ofReading_eq_ok.mpr ⟨document, hj, hb⟩⟩
  · intro distinct value b hv h
    obtain ⟨document, hj, hb⟩ := ofReading_eq_ok.mp h
    exact ofReading_eq_ok.mpr ⟨document, Document.Machine.ofText_of_ofJson distinct hv hj, hb⟩

/-- A definition whose text has the state `A` twice, and a key of its result twice. -/
def defined : Json :=
  .object [
    ("StartAt", .string "A"),
    ("States", .object [
      ("A", .object [("Type", .string "Fail")]),
      ("A", .object [
        ("Type", .string "Pass"),
        ("Result", .object [("k", .null), ("k", .bool true)]),
        ("End", .bool true)])])]

/-- A definition that repeats no key, with a payload in a branch. The state in the branch has the name
of one outside, which is no repetition. -/
def definedOnce : Json :=
  .object [
    ("States", .object [
      ("Split", .object [
        ("Branches", .array [.object [
          ("States", .object [("Done", .object [
            ("End", .bool true), ("Type", .string "Pass"), ("ResultPath", .null),
            ("Result", .object [
              ("drift", .number (.real .negativeZero)),
              ("sizes", .array [.number (.whole (.ofUInt64 1)), .null, .object []])])])]),
          ("StartAt", .string "Done")]]),
        ("Next", .string "Done"), ("Type", .string "Parallel")]),
      ("Done", .object [("Type", .string "Succeed"), ("Comment", .null)])]),
    ("StartAt", .string "Split")]

theorem ofText_agrees_ofJson_defined :
    (∃ b, ofText defined.compact = .ok b ∧
      ∃ value, Json.parse defined.compact = .ok value ∧ ofJson value = .ok b) ∧
    (Written.ofText definedOnce.compact).1.Distinct ∧
      ∃ value b, Json.parse definedOnce.compact = .ok value ∧ ofJson value = .ok b ∧
        ofText definedOnce.compact = .ok b := by
  constructor
  · have read : (ofText defined.compact).toOption.isSome = true := by
      rw [ofText_compact (by decide)]
      decide +kernel
    obtain ⟨b, h⟩ := exists_ok_of_isSome read
    exact ⟨b, h, (ofText_agrees_ofJson defined.compact).1 b h⟩
  · have fits : definedOnce.nesting ≤ Written.maxDepth := by decide
    have distinct : (Written.ofText definedOnce.compact).1.Distinct := by
      rw [definedOnce.written_compact fits]
      decide +kernel
    have once : definedOnce.Distinct := by
      simp [definedOnce, Json.Distinct, Json.DistinctItems, Json.DistinctMembers]
    have said : Json.parse definedOnce.compact = .ok definedOnce :=
      (Json.parse_layout Json.Layout.spaced_compact once).trans (if_pos fits)
    have read : (ofJson definedOnce).toOption.isSome = true := by decide +kernel
    obtain ⟨b, h⟩ := exists_ok_of_isSome read
    exact ⟨distinct, definedOnce, b, said, h,
      (ofText_agrees_ofJson definedOnce.compact).2 distinct definedOnce b said h⟩

end Draft.Machine

end Workflow
