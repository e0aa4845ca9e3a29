import Workflow.Proofs.DistinctKeys
import Workflow.State.Alike

/-!
# A machine that was built is like itself

Likeness compares numbers numerically, so a value in which a number is undefined is not like
itself; and an object that repeats a key may not be like itself either. Neither occurs in what is
built.

## Main results

* `Json.alike_self`: a value that repeats no key is like itself
* `Machine.alike_self`: a machine that was built is like itself
-/

namespace Workflow

namespace Alike

variable {α : Type}

theorem option_self [Alike α] {o : Option α} (h : ∀ a ∈ o, alike a a = true) :
    alike o o = true := by
  cases o with
  | none => rfl
  | some a => exact h a rfl

theorem list_self [Alike α] {items : List α} (h : ∀ a ∈ items, alike a a = true) :
    alike items items = true := by
  induction items with
  | nil => rfl
  | cons a items ih =>
    rw [List.forall_mem_cons] at h
    exact Bool.and_eq_true_iff.mpr ⟨h.1, ih h.2⟩

/-- Types whose values are all like themselves. -/
class Reflexive (α : Type) [Alike α] : Prop where
  /-- Every value is like itself. -/
  alike_self : ∀ a : α, alike a a = true

export Reflexive (alike_self)

attribute [simp] alike_self

theorem ofEq_reflexive [DecidableEq α] : @Reflexive α (ofEq α) :=
  @Reflexive.mk α (ofEq α) fun _ => decide_eq_true rfl

instance : Reflexive String := ofEq_reflexive

instance : Reflexive UInt32 := ofEq_reflexive

instance : Reflexive Transition := ofEq_reflexive

instance : Reflexive Selector := ofEq_reflexive

instance : Reflexive Common := ofEq_reflexive

instance : Reflexive Fail := ofEq_reflexive

instance [Alike α] [Reflexive α] : Reflexive (Option α) :=
  ⟨fun _ => option_self fun a _ => alike_self a⟩

instance [Alike α] [Reflexive α] : Reflexive (List α) :=
  ⟨fun _ => list_self fun a _ => alike_self a⟩

end Alike

/-! ### Numbers and payloads -/

theorem Finite.eq_self (x : Finite) : x.eq x = true := by
  simp [eq]

theorem Double.alike_self {x : Double} (h : x.isFinite = true) : alike x x = true := by
  cases x with
  | finite x => exact x.eq_self
  | _ => cases h

theorem Json.Number.eq_self (n : Number) : n.eq n = true := by
  cases n with
  | whole n => exact beq_self_eq_true n
  | real x => exact x.eq_self

namespace Json

mutual

theorem alike_self {value : Json} (h : value.Distinct) : value.alike value = true := by
  cases value with
  | null => rfl
  | bool value => exact beq_self_eq_true value
  | number n => exact n.eq_self
  | string s => exact beq_self_eq_true s
  | array items => exact alikeItems_self h
  | object members =>
    simp only [alike, beq_self_eq_true, Bool.true_and]
    exact alikeMembers_self h.2 fun m hm => get?_of_mem h.1 hm

theorem alikeItems_self {items : List Json} (h : DistinctItems items) :
    alikeItems items items = true := by
  cases items with
  | nil => rfl
  | cons item items =>
    rw [alikeItems, alike_self h.1, alikeItems_self h.2, Bool.and_self]

/-- Members are like those of an object in which they are found. -/
theorem alikeMembers_self {members others : Members} (h : DistinctMembers members)
    (hm : ∀ m ∈ members, get? m.1 others = some m.2) : alikeMembers members others = true := by
  cases members with
  | nil => rfl
  | cons m members =>
    obtain ⟨key, value⟩ := m
    rw [List.forall_mem_cons] at hm
    simp only [alikeMembers, hm.1, alike_self h.1, alikeMembers_self h.2 hm.2, Bool.and_self]

end

end Json

/-! ### Conditions -/

theorem Expected.alike_self {value : Expected} (h : value.Writable) : alike value value = true := by
  cases value with
  | string text => exact beq_self_eq_true text
  | boolean value => exact beq_self_eq_true value
  | timestamp t => simp [alike, Expected.eq, Timestamp.eq]
  | numeric value =>
    cases value with
    | integer n => exact beq_self_eq_true n
    | double x => exact Double.alike_self h

namespace Condition

mutual

theorem alike_self {c : Condition} (h : c.toDraft.Valid) : c.alike c = true := by
  cases c with
  | comparison c =>
    have value := Expected.alike_self h.2.1
    have same : Alike.alike c c = (c.comparator == c.comparator && Alike.alike c.path c.path &&
      Alike.alike c.expected c.expected) := rfl
    rw [alike, same, value]
    simp
  | and parts => exact alikeParts_self h.2
  | or parts => exact alikeParts_self h.2
  | not part => exact alike_self (c := part) h

theorem alikeParts_self {cs : List Condition} (h : Draft.Condition.ValidParts (toDrafts cs)) :
    alikeParts cs cs = true := by
  cases cs with
  | nil => rfl
  | cons c cs => rw [alikeParts, alike_self h.1, alikeParts_self h.2, Bool.and_self]

end

end Condition

/-! ### States -/

theorem alike_parameters_self {parameters : Option Members}
    (h : ∀ ms ∈ parameters, (Json.object ms).Distinct) : alike parameters parameters = true := by
  cases parameters with
  | none => rfl
  | some ms => exact Json.alike_self (h ms rfl)

theorem Retrier.alike_self {r : Retrier} (h : r.Valid) : alike r r = true := by
  have backoff := Alike.option_self fun x hx => Double.alike_self (h.backoff x hx).1
  have parts : alike r r = (alike r.errors r.errors && alike r.intervalSeconds r.intervalSeconds &&
    alike r.maxAttempts r.maxAttempts && alike r.backoffRate r.backoffRate) := rfl
  rw [parts, backoff]
  simp

instance : Alike.Reflexive Catcher where
  alike_self c := by
    have parts : alike c c = (alike c.errors c.errors && alike c.resultPath c.resultPath &&
      alike c.transition c.transition) := rfl
    rw [parts]
    simp

instance : Alike.Reflexive Delay where
  alike_self d := by
    have parts : alike d d = d.eq d := rfl
    rw [parts]
    cases d <;> simp [Delay.eq, Timestamp.eq]

instance : Alike.Reflexive Wait where
  alike_self w := by
    have parts : alike w w = (alike w.toCommon w.toCommon && alike w.delay w.delay &&
      alike w.transition w.transition) := rfl
    rw [parts]
    simp

theorem Task.alike_self {t : Task} (hp : ∀ ms ∈ t.parameters, (Json.object ms).Distinct)
    (hr : ∀ r ∈ t.retriers, r.Valid) : alike t t = true := by
  have retriers := Alike.list_self fun r hm => Retrier.alike_self (hr r hm)
  have parts : alike t t = (alike t.toCommon t.toCommon && alike t.resource t.resource &&
    alike t.parameters t.parameters && alike t.resultPath t.resultPath &&
    alike t.timeoutSeconds t.timeoutSeconds && alike t.heartbeatSeconds t.heartbeatSeconds &&
    alike t.retriers t.retriers && alike t.catchers t.catchers &&
    alike t.transition t.transition) := rfl
  rw [parts, alike_parameters_self hp, retriers]
  simp

theorem Pass.alike_self {p : Pass} (hp : ∀ ms ∈ p.parameters, (Json.object ms).Distinct)
    (hr : ∀ value ∈ p.result, value.Distinct) : alike p p = true := by
  have result := Alike.option_self fun value hm => Json.alike_self (hr value hm)
  have parts : alike p p = (alike p.toCommon p.toCommon && alike p.result p.result &&
    alike p.parameters p.parameters && alike p.resultPath p.resultPath &&
    alike p.transition p.transition) := rfl
  rw [parts, alike_parameters_self hp, result]
  simp

theorem Rule.alike_self {r : Rule} (h : r.toDraft.Valid) : alike r r = true := by
  obtain ⟨c, hc, hs⟩ := h.condition
  obtain rfl : c = r.condition.toDraft := by simpa [Rule.toDraft] using hs
  have condition : alike r.condition r.condition = true := Condition.alike_self hc
  have parts : alike r r = (alike r.condition r.condition &&
    alike r.transition r.transition) := rfl
  rw [parts, condition]
  simp

theorem Choice.alike_self {c : Choice} (h : ∀ r ∈ c.rules, r.toDraft.Valid) :
    alike c c = true := by
  have rules := Alike.list_self fun r hm => Rule.alike_self (h r hm)
  have parts : alike c c = (alike c.toCommon c.toCommon && alike c.rules c.rules &&
    alike c.default c.default) := rfl
  rw [parts, rules]
  simp

namespace State

mutual

/-- A state that was built is like itself. -/
theorem alike_self {s : State} (h : s.toDraft.build = .ok s)
    (hd : (Json.object s.toMembers).Distinct) : s.alike s = true := by
  cases s with
  | task t =>
    obtain ⟨t', hb, -⟩ := bind_eq_ok.mp h
    have valid := (Draft.Task.build_eq_ok.mp hb).1
    exact t.alike_self (Task.distinct_parameters hd) valid.retriers
  | pass p => exact p.alike_self (Pass.distinct_parameters hd) (Pass.distinct_result hd)
  | wait w => exact Alike.alike_self w
  | choice c =>
    obtain ⟨c', hb, hc⟩ := bind_eq_ok.mp h
    have valid := (Draft.Choice.build_eq_ok.mp hb).1
    exact c.alike_self fun r hr => valid.rules _ (List.mem_map_of_mem hr)
  | succeed common => exact Alike.alike_self common
  | fail f => exact Alike.alike_self f
  | parallel p =>
    have parts :=
      alikeBranches_self (Draft.State.build_toDraft_parallel h) (distinct_branchItems hd)
    obtain ⟨common, branches, resultPath, retriers, catchers, transition⟩ := p
    obtain ⟨-, -, -, _, -, _, _, hp, -⟩ := Draft.State.build_parallel_eq_ok.mp h
    obtain ⟨valid, -⟩ := Draft.buildPolicies_eq_ok.mp hp
    have policies := Alike.list_self fun r hm => Retrier.alike_self (valid r hm)
    rw [alike, parts, policies]
    simp

theorem alikeBranches_self {index : Nat} {bs : List (Branch State)}
    (h : Draft.State.buildBranches index (toDraftBranches bs) = .ok bs)
    (hd : Json.DistinctItems (branchItems bs)) : alikeBranches bs bs = true := by
  cases bs with
  | nil => rfl
  | cons b bs =>
    obtain ⟨comment, startAt, states⟩ := b
    obtain ⟨hs, hbs⟩ := Draft.State.build_toDraftBranches_cons h
    obtain ⟨⟨-, hb⟩, hds⟩ := hd
    have scope : (Json.object (stateMembers states)).Distinct :=
      hb.of_get? "States" (get?_branchMembers_states ..)
    rw [alikeBranches, alikeStates_self hs scope.2, alikeBranches_self hbs hds]
    simp

theorem alikeStates_self {ss : States}
    (h : Draft.State.buildStates (toDraftStates ss) = .ok ss)
    (hd : Json.DistinctMembers (stateMembers ss)) : alikeStates ss ss = true := by
  cases ss with
  | nil => rfl
  | cons s ss =>
    obtain ⟨name, s⟩ := s
    obtain ⟨hs, hss⟩ := Draft.State.build_toDraftStates_cons h
    rw [alikeStates, alike_self hs hd.1, alikeStates_self hss hd.2]
    simp

end

end State

/-- A machine that was built is like itself. -/
theorem Machine.alike_self {m : Machine} (h : m.toDraft.build = .ok m) (hd : m.toJson.Distinct) :
    alike m m = true := by
  have hs := Draft.Machine.build_toDraft_states h
  have scope : (Json.object (State.stateMembers m.states)).Distinct :=
    hd.2.of_get? "States" m.get?_toMembers_states
  have parts : alike m m = (alike m.comment m.comment && alike m.startAt m.startAt &&
    alike m.timeoutSeconds m.timeoutSeconds && alike m.version m.version &&
    State.alikeStates m.states m.states) := rfl
  rw [parts, State.alikeStates_self hs scope.2]
  simp

end Workflow
