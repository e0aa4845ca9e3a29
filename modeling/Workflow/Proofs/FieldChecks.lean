import Workflow.Draft.Simple
import Workflow.Proofs.PathScan

/-!
# What the checks of fields ask for

For every part of a state that is built by itself, what has to be true of its draft, and what is
built then. Nothing is lost: but for the form in which a fixed result was given, the draft can be
read off what was built.

## Main definitions

* `Retrier.Valid`, `Draft.Condition.Valid`, `Draft.Task.Valid`, …: what is asked of a draft
* `Condition.toDraft`, `Rule.toDraft`, `Task.toDraft`, …: the draft of what was built
* `Draft.Result.settle`: a fixed result once it has been read

## Main results

* `Draft.Condition.build_eq_ok`, `Draft.Task.build_eq_ok`, …: a draft builds exactly when it is
  valid, and it is the draft of what it builds
-/

namespace Workflow

/-! ### Paths and timestamps -/

/-- A path that may be absent is of a grammar, unless the data is discarded. -/
def Selector.Conforms (g : Path.Grammar) (s : Option Selector) : Prop :=
  ∀ text, s = some (.path text) → Path.IsPath g text.toList

@[simp]
theorem checkPath_eq_ok {field : String} {g : Path.Grammar} {text : String} :
    checkPath field g text = .ok () ↔ Path.IsPath g text.toList := by
  rw [← Path.check_eq_ok]
  unfold checkPath
  split <;> simp_all

@[simp]
theorem checkSelector_eq_ok {field : String} {g : Path.Grammar} {s : Option Selector} :
    checkSelector field g s = .ok () ↔ Selector.Conforms g s := by
  rcases s with _ | _ | _ <;> simp [checkSelector, Selector.Conforms]

@[simp]
theorem checkResultPath_eq_ok {s : Option Selector} :
    checkResultPath s = .ok () ↔ Selector.Conforms .reference s :=
  checkSelector_eq_ok

/-- The year of an instant has four digits. -/
def Timestamp.InRange (t : Timestamp) : Prop :=
  0 ≤ t.year ∧ t.year ≤ 9999

@[simp]
theorem checkTimestamp_eq_ok {field : String} {t : Timestamp} :
    checkTimestamp field t = .ok () ↔ t.InRange := by
  by_cases h : 0 ≤ t.year ∧ t.year ≤ 9999 <;>
    simp [checkTimestamp, Timestamp.checkRange, Timestamp.InRange, h]

/-- The paths that states have in common are of the full grammar. -/
structure Common.Valid (c : Common) : Prop where
  inputPath : Selector.Conforms .path c.inputPath
  outputPath : Selector.Conforms .path c.outputPath

@[simp]
theorem Common.check_eq_ok {c : Common} : c.check = .ok () ↔ c.Valid := by
  simp only [check, bind_eq_ok, exists_unit, checkSelector_eq_ok]
  exact ⟨fun h => ⟨h.1, h.2⟩, fun h => ⟨h.1, h.2⟩⟩

/-! ### Transitions and policies -/

/-- A transition names its state. -/
def Transition.Named (t : Transition) : Prop :=
  t ≠ .next ""

theorem Transition.check_eq_ok {t u : Transition} : t.check = .ok u ↔ u.Named ∧ t = u := by
  cases t with
  | finish => simp only [check, Except.ok.injEq, Named]; grind
  | next name =>
    by_cases h : name = ""
    · subst h
      simp only [check, if_true, reduceCtorEq, false_iff, not_and, Named]
      rintro hu rfl
      exact hu rfl
    · simp only [check, if_neg h, Except.ok.injEq, Named]
      constructor
      · rintro rfl
        simp [h]
      · exact And.right

theorem requireTransition_eq_ok {o : Option Transition} {t : Transition} :
    requireTransition o = .ok t ↔ t.Named ∧ o = some t := by
  cases o with
  | none => simp [requireTransition]
  | some u => simp [requireTransition, Transition.check_eq_ok]

/-- There are error names, and none is empty. -/
def ErrorsValid (names : List String) : Prop :=
  names ≠ [] ∧ "" ∉ names

@[simp]
theorem checkErrors_eq_ok {names : List String} :
    checkErrors names = .ok () ↔ ErrorsValid names := by
  unfold checkErrors ErrorsValid
  cases names with
  | nil => simp
  | cons name names =>
    simp only [List.isEmpty_cons, Bool.false_eq_true, if_false, ne_eq, reduceCtorEq,
      not_false_eq_true, true_and]
    split
    · next h =>
      have hne : ∀ n ∈ name :: names, ¬ "" = n := fun n hn he => by
        simpa [← he] using List.findIdx?_eq_none_iff.mp h n hn
      simpa using fun hm => hne _ hm rfl
    · next i h =>
      obtain ⟨hi, hget, -⟩ := List.findIdx?_eq_some_iff_getElem.mp h
      have hmem : "" ∈ name :: names := beq_iff_eq.mp hget ▸ List.getElem_mem hi
      simp [hmem]

@[simp]
theorem checkPositive_eq_ok {field : String} {seconds : Option UInt32} :
    checkPositive field seconds = .ok () ↔ seconds ≠ some 0 := by
  by_cases h : seconds = some 0 <;> simp [checkPositive, h]

@[simp]
theorem checkBackoff_eq_ok {rate : Option Double} :
    checkBackoff rate = .ok () ↔ ∀ x ∈ rate, x.isFinite = true ∧ x.lt .one = false := by
  cases rate with
  | none => simp [checkBackoff]
  | some x => by_cases h : x.isFinite && !x.lt .one <;> simp_all [checkBackoff]

/-- What is asked of a retrier. -/
structure Retrier.Valid (r : Retrier) : Prop where
  errors : ErrorsValid r.errors
  interval : r.intervalSeconds ≠ some 0
  backoff : ∀ x ∈ r.backoffRate, x.isFinite = true ∧ x.lt .one = false

theorem Retrier.check_eq_ok {r q : Retrier} : r.check = .ok q ↔ r.Valid ∧ q = r := by
  simp only [check, bind_eq_ok, exists_unit, checkErrors_eq_ok, checkPositive_eq_ok,
    checkBackoff_eq_ok, Except.ok.injEq]
  constructor
  · rintro ⟨h₁, h₂, h₃, rfl⟩
    exact ⟨⟨h₁, h₂, h₃⟩, rfl⟩
  · rintro ⟨⟨h₁, h₂, h₃⟩, rfl⟩
    exact ⟨h₁, h₂, h₃, rfl⟩

/-- The draft of a catcher. -/
def Catcher.toDraft (c : Catcher) : Draft.Catcher :=
  ⟨c.errors, c.resultPath, some c.transition⟩

/-- What is asked of a catcher. -/
structure Draft.Catcher.Valid (c : Draft.Catcher) : Prop where
  errors : ErrorsValid c.errors
  resultPath : Selector.Conforms .reference c.resultPath
  transition : ∃ t, t.Named ∧ c.transition = some t

theorem Draft.Catcher.build_eq_ok {d : Draft.Catcher} {c : Workflow.Catcher} :
    d.build = .ok c ↔ d.Valid ∧ c.toDraft = d := by
  simp only [build, bind_eq_ok, exists_unit, checkErrors_eq_ok, checkResultPath_eq_ok,
    requireTransition_eq_ok, Except.ok.injEq]
  constructor
  · rintro ⟨h₁, h₂, t, ⟨ht, h₃⟩, rfl⟩
    refine ⟨⟨h₁, h₂, t, ht, h₃⟩, ?_⟩
    simp [Catcher.toDraft, ← h₃]
  · rintro ⟨⟨h₁, h₂, t, ht, h₃⟩, rfl⟩
    obtain rfl : c.transition = t := by simpa [Catcher.toDraft] using h₃
    exact ⟨h₁, h₂, _, ⟨ht, rfl⟩, rfl⟩

theorem Draft.buildPolicies_eq_ok {retriers : List Retrier} {catchers : List Draft.Catcher}
    {rs : List Retrier} {cs : List Workflow.Catcher} :
    buildPolicies retriers catchers = .ok (rs, cs) ↔
      (∀ r ∈ retriers, r.Valid) ∧ (∀ c ∈ catchers, c.Valid) ∧ rs = retriers ∧
        cs.map Catcher.toDraft = catchers := by
  have hr : ∀ r q : Retrier, r.check = .ok q ↔ r.Valid ∧ id q = r := fun _ _ =>
    Retrier.check_eq_ok
  simp only [buildPolicies, bind_eq_ok, Checked.each_eq_ok hr,
    Checked.each_eq_ok fun _ _ => Catcher.build_eq_ok, Except.ok.injEq, Prod.mk.injEq, List.map_id]
  constructor
  · rintro ⟨_, ⟨h₁, rfl⟩, _, ⟨h₂, h₃⟩, rfl, rfl⟩
    exact ⟨h₁, h₂, rfl, h₃⟩
  · rintro ⟨h₁, h₂, rfl, h₃⟩
    exact ⟨_, ⟨h₁, rfl⟩, _, ⟨h₂, h₃⟩, rfl, rfl⟩

/-! ### Conditions and rules -/

theorem Comparator.resolve?_eq_some {family : Family} {operator : Operator} {c : Comparator} :
    resolve? family operator = some c ↔ c.family = family ∧ c.operator = operator := by
  unfold resolve?
  split
  · next h =>
    rw [Option.some.injEq]
    constructor
    · rintro rfl
      exact ⟨rfl, rfl⟩
    · rintro ⟨rfl, rfl⟩
      rfl
  · next h =>
    simp only [reduceCtorEq, false_iff, not_and]
    rintro rfl rfl
    exact h c.boolean_equals

/-- A value can be written: a number is finite, and the year of a timestamp has four digits. -/
def Expected.Writable : Expected → Prop
  | string _ | boolean _ => True
  | numeric value => value.isFinite = true
  | timestamp t => t.InRange

@[simp]
theorem Draft.checkExpected_eq_ok {c : Comparator} {value : Expected} :
    checkExpected c value = .ok () ↔ value.Writable := by
  cases value with
  | numeric value => simp [checkExpected, Expected.Writable]
  | _ => simp [checkExpected, Expected.Writable]

namespace Condition

mutual

/-- The draft of a condition. -/
def toDraft : Condition → Draft.Condition
  | comparison c => .comparison c.comparator.operator c.path c.expected
  | and parts => .and (toDrafts parts)
  | or parts => .or (toDrafts parts)
  | not part => .not (toDraft part)

/-- The drafts of the parts of a combination. -/
def toDrafts : List Condition → List Draft.Condition
  | [] => []
  | part :: parts => toDraft part :: toDrafts parts

end

mutual

/-- Every comparator in a condition is of the family of the value that is compared with. -/
def Typed : Condition → Prop
  | comparison c => c.comparator.family = c.expected.family
  | and parts | or parts => TypedParts parts
  | not part => Typed part

/-- Every comparator in the parts of a combination is of the family of its value. -/
def TypedParts : List Condition → Prop
  | [] => True
  | part :: parts => Typed part ∧ TypedParts parts

end

end Condition

namespace Draft

theorem buildComparison_eq_ok {operator : Operator} {path : String} {value : Expected}
    {c : Comparison} :
    buildComparison operator path value = .ok c ↔
      Path.IsPath .reference path.toList ∧ value.Writable ∧
        c.comparator.family = value.family ∧ c.comparator.operator = operator ∧
        c.path = path ∧ c.expected = value := by
  simp only [buildComparison, bind_eq_ok, exists_unit, checkPath_eq_ok]
  cases h : Comparator.resolve? value.family operator with
  | none =>
    have refused : ¬(c.comparator.family = value.family ∧ c.comparator.operator = operator) :=
      fun hc => by simp [Comparator.resolve?_eq_some.mpr hc] at h
    simp only [reduceCtorEq, and_false, false_iff]
    rintro ⟨-, -, hf, ho, -⟩
    exact refused ⟨hf, ho⟩
  | some comparator =>
    obtain ⟨hf, ho⟩ := Comparator.resolve?_eq_some.mp h
    simp only [bind_eq_ok, exists_unit, checkExpected_eq_ok, Except.ok.injEq]
    constructor
    · rintro ⟨hp, hw, rfl⟩
      exact ⟨hp, hw, hf, ho, rfl, rfl⟩
    · rintro ⟨hp, hw, hf', ho', rfl, rfl⟩
      have same := Comparator.resolve?_eq_some.mpr ⟨hf', ho'⟩
      rw [h, Option.some.injEq] at same
      exact ⟨hp, hw, by rw [same]⟩

namespace Condition

mutual

/-- What is asked of a condition. -/
def Valid : Condition → Prop
  | comparison operator path value =>
    Path.IsPath .reference path.toList ∧ value.Writable ∧
      (value.family = .boolean → operator = .equals)
  | and parts | or parts => parts ≠ [] ∧ ValidParts parts
  | not part => Valid part

/-- What is asked of the parts of a combination. -/
def ValidParts : List Condition → Prop
  | [] => True
  | part :: parts => Valid part ∧ ValidParts parts

end

mutual

theorem build_eq_ok {d : Condition} {c : Workflow.Condition} :
    d.build = .ok c ↔ d.Valid ∧ c.Typed ∧ c.toDraft = d := by
  match d with
  | comparison operator path value =>
    simp only [build, bind_eq_ok, buildComparison_eq_ok, Except.ok.injEq, Valid]
    constructor
    · rintro ⟨c, ⟨hp, hw, hf, rfl, rfl, rfl⟩, rfl⟩
      exact ⟨⟨hp, hw, hf ▸ c.comparator.boolean_equals⟩, hf, rfl⟩
    · rintro ⟨⟨hp, hw, -⟩, hf, hc⟩
      cases c with
      | comparison c =>
        simp only [Condition.toDraft, comparison.injEq] at hc
        obtain ⟨rfl, rfl, rfl⟩ := hc
        exact ⟨c, ⟨hp, hw, hf, rfl, rfl, rfl⟩, rfl⟩
      | _ => simp [Condition.toDraft] at hc
  | and [] => simp [build, Valid]
  | and (part :: parts) =>
    simp only [build, bind_eq_ok, buildParts_eq_ok, Except.ok.injEq, Valid]
    cases c <;> simp [Condition.toDraft, Condition.Typed, and_assoc]
  | or [] => simp [build, Valid]
  | or (part :: parts) =>
    simp only [build, bind_eq_ok, buildParts_eq_ok, Except.ok.injEq, Valid]
    cases c <;> simp [Condition.toDraft, Condition.Typed, and_assoc]
  | not part =>
    simp only [build, bind_eq_ok, Checked.within_eq_ok, build_eq_ok, Except.ok.injEq, Valid]
    cases c <;> simp [Condition.toDraft, Condition.Typed, and_assoc]

theorem buildParts_eq_ok {key : String} {index : Nat} {ds : List Condition}
    {cs : List Workflow.Condition} :
    buildParts key index ds = .ok cs ↔
      ValidParts ds ∧ Condition.TypedParts cs ∧ Condition.toDrafts cs = ds := by
  match ds with
  | [] => cases cs <;> simp [buildParts, ValidParts, Condition.TypedParts, Condition.toDrafts]
  | d :: ds =>
    simp only [buildParts, bind_eq_ok, Checked.within_eq_ok, build_eq_ok, buildParts_eq_ok,
      Except.ok.injEq, ValidParts]
    cases cs with
    | nil => simp [Condition.toDrafts]
    | cons c cs =>
      simp only [Condition.TypedParts, Condition.toDrafts, List.cons.injEq]
      constructor
      · rintro ⟨_, ⟨hd, ht, hc⟩, _, ⟨hds, hts, hcs⟩, rfl, rfl⟩
        exact ⟨⟨hd, hds⟩, ⟨ht, hts⟩, hc, hcs⟩
      · rintro ⟨⟨hd, hds⟩, ⟨ht, hts⟩, hc, hcs⟩
        exact ⟨_, ⟨hd, ht, hc⟩, _, ⟨hds, hts, hcs⟩, rfl, rfl⟩

end

end Condition

end Draft

end Workflow
