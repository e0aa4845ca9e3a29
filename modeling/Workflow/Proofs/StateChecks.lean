import Workflow.Draft.Simple
import Workflow.Proofs.FieldChecks

/-!
# What building a state asks for

A draft of a state without branches builds exactly when it is valid, and the draft can be read off
the state that was built. Only the form in which a fixed result was given is lost: what is read
off is the draft in which that result has been read.

## Main definitions

* `Draft.Task.Valid`, `Draft.Pass.Valid`, …: what is asked of a draft
* `Task.toDraft`, `Pass.toDraft`, …: the draft of what was built
* `Draft.Pass.settle`: a draft in which the fixed result has been read

## Main results

* `Draft.Task.build_eq_ok`, `Draft.Pass.build_eq_ok`, …: a draft builds exactly when it is valid
-/

namespace Workflow

open Draft (requireResource checkHeartbeat requireDelay buildResult)

/-! ### States that have work done -/

/-- The draft of a state that has work done. -/
def Task.toDraft (t : Task) : Draft.Task :=
  { t.toCommon with
    resource := some t.resource, parameters := t.parameters.map .object,
    resultPath := t.resultPath, timeoutSeconds := t.timeoutSeconds,
    heartbeatSeconds := t.heartbeatSeconds, retriers := t.retriers,
    catchers := t.catchers.map Catcher.toDraft, transition := some t.transition }

/-- Parameters, if given, are an object. -/
def ParametersValid (parameters : Option Json) : Prop :=
  ∀ value ∈ parameters, ∃ members, value = .object members

theorem checkParameters_eq_ok {o : Option Json} {members : Option (List (String × Json))} :
    checkParameters o = .ok members ↔ ParametersValid o ∧ members.map .object = o := by
  cases o with
  | none => cases members <;> simp [checkParameters, ParametersValid]
  | some value =>
    cases value with
    | object ms => cases members <;> simp [checkParameters, ParametersValid, eq_comm]
    | _ => simp [checkParameters, ParametersValid]

theorem requireResource_eq_ok {o : Option String} {resource : String} :
    requireResource o = .ok resource ↔ resource ≠ "" ∧ some resource = o := by
  cases o with
  | none => simp [requireResource]
  | some r =>
    by_cases h : r = ""
    · subst h
      simp [requireResource]
    · simp only [requireResource, if_neg h, Except.ok.injEq, Option.some.injEq]
      grind

/-- A heartbeat, if given, is positive and shorter than the timeout. -/
def HeartbeatValid (heartbeat timeout : Option UInt32) : Prop :=
  heartbeat ≠ some 0 ∧ ∀ h ∈ heartbeat, ∀ t ∈ timeout, h < t

@[simp]
theorem checkHeartbeat_eq_ok {heartbeat timeout : Option UInt32} :
    checkHeartbeat heartbeat timeout = .ok () ↔ HeartbeatValid heartbeat timeout := by
  rcases heartbeat with _ | h
  · simp [checkHeartbeat, HeartbeatValid]
  · by_cases h0 : h = 0
    · simp [checkHeartbeat, HeartbeatValid, h0]
    · rcases timeout with _ | t
      · simp [checkHeartbeat, HeartbeatValid, h0]
      · by_cases ht : t ≤ h
        · simp [checkHeartbeat, HeartbeatValid, h0, ht]
        · simp [checkHeartbeat, HeartbeatValid, h0, ht, UInt32.not_le.mp ht]

namespace Draft

/-- What is asked of a state that has work done. -/
structure Task.Valid (t : Task) : Prop where
  common : t.toCommon.Valid
  resultPath : Selector.Conforms .reference t.resultPath
  resource : ∃ resource, resource ≠ "" ∧ some resource = t.resource
  parameters : ParametersValid t.parameters
  timeout : t.timeoutSeconds ≠ some 0
  heartbeat : HeartbeatValid t.heartbeatSeconds t.timeoutSeconds
  retriers : ∀ r ∈ t.retriers, r.Valid
  catchers : ∀ c ∈ t.catchers, c.Valid
  transition : ∃ u, u.Named ∧ t.transition = some u

theorem Task.build_eq_ok {d : Task} {t : Workflow.Task} :
    d.build = .ok t ↔ d.Valid ∧ t.toDraft = d := by
  simp only [build, bind_eq_ok, exists_unit, Common.check_eq_ok, checkResultPath_eq_ok,
    requireResource_eq_ok, checkParameters_eq_ok, checkPositive_eq_ok, checkHeartbeat_eq_ok,
    Prod.exists, buildPolicies_eq_ok, requireTransition_eq_ok, Except.ok.injEq]
  constructor
  · rintro ⟨hc, hr, resource, ⟨hn, hs⟩, members, ⟨hp, hm⟩, ht, hh, retriers, catchers,
      ⟨hrs, hcs, rfl, hcd⟩, transition, ⟨hx, hd⟩, rfl⟩
    refine ⟨⟨hc, hr, ⟨resource, hn, hs⟩, hp, ht, hh, hrs, hcs, transition, hx, hd⟩, ?_⟩
    simp [Task.toDraft, hs, hm, hcd, ← hd]
  · rintro ⟨⟨hc, hr, ⟨resource, hn, hs⟩, hp, ht, hh, hrs, hcs, transition, hx, hd⟩, rfl⟩
    obtain rfl : t.transition = transition := by simpa [Task.toDraft] using hd
    obtain rfl : resource = t.resource := by simpa [Task.toDraft] using hs
    exact ⟨hc, hr, t.resource, ⟨hn, rfl⟩, t.parameters, ⟨hp, rfl⟩, ht, hh, t.retriers, t.catchers,
      ⟨hrs, hcs, rfl, rfl⟩, t.transition, ⟨hx, rfl⟩, rfl⟩

end Draft

/-! ### States that pass their input on -/

namespace Draft

/-- A fixed result once it has been read; one that cannot be read stays as it is. -/
def Result.settle (r : Result) : Result :=
  match r.build with
  | .ok json => .value json
  | .error _ => r

/-- A draft once its fixed result has been read. -/
def Pass.settle (p : Pass) : Pass :=
  { p with result := p.result.map Result.settle }

end Draft

/-- The draft of a state that passes its input on. -/
def Pass.toDraft (p : Pass) : Draft.Pass :=
  { p.toCommon with
    result := p.result.map .value, parameters := p.parameters.map .object,
    resultPath := p.resultPath, transition := some p.transition }

namespace Draft

/-- A fixed result has a value: it is one, or a text that can be read. -/
def Result.Representable : Result → Prop
  | value _ => True
  | text json => ∃ value, Json.parse json = .ok value
  | unrepresentable _ => False

theorem Result.exists_build_iff (r : Result) :
    (∃ value, r.build = .ok value) ↔ r.Representable := by
  cases r with
  | value json => exact iff_of_true ⟨json, rfl⟩ trivial
  | text json => cases h : Json.parse json <;> simp [build, Representable, h]
  | unrepresentable reason => simp [build, Representable]

theorem Result.settle_of_build {r : Result} {value : Json} (h : r.build = .ok value) :
    r.settle = .value value := by
  rw [settle, h]

@[simp]
theorem Result.build_settle (r : Result) : r.settle.build = r.build := by
  unfold settle
  cases h : r.build with
  | ok json => rfl
  | error _ => exact h

@[simp]
theorem buildResult_settle (o : Option Result) :
    buildResult (o.map Result.settle) = buildResult o := by
  cases o with
  | none => rfl
  | some r => simp [buildResult]

theorem buildResult_eq_ok {o : Option Result} {value : Option Json} :
    buildResult o = .ok value ↔
      (∀ r ∈ o, r.Representable) ∧ value.map Result.value = o.map Result.settle := by
  cases o with
  | none => cases value <;> simp [buildResult]
  | some r =>
    simp only [buildResult, bind_eq_ok, Except.ok.injEq, Option.mem_def, Option.some.injEq,
      forall_eq', Option.map_some, Option.map_eq_some_iff, ← Result.exists_build_iff]
    constructor
    · rintro ⟨v, hv, rfl⟩
      exact ⟨⟨v, hv⟩, v, rfl, (Result.settle_of_build hv).symm⟩
    · rintro ⟨⟨v, hv⟩, w, rfl, hw⟩
      rw [Result.settle_of_build hv, Result.value.injEq] at hw
      exact ⟨v, hv, by rw [hw]⟩

/-- What is asked of a state that passes its input on. -/
structure Pass.Valid (p : Pass) : Prop where
  common : p.toCommon.Valid
  resultPath : Selector.Conforms .reference p.resultPath
  result : ∀ r ∈ p.result, r.Representable
  parameters : ParametersValid p.parameters
  transition : ∃ u, u.Named ∧ p.transition = some u

theorem Pass.build_eq_ok {d : Pass} {p : Workflow.Pass} :
    d.build = .ok p ↔ d.Valid ∧ p.toDraft = d.settle := by
  simp only [build, bind_eq_ok, exists_unit, Common.check_eq_ok, checkResultPath_eq_ok,
    buildResult_eq_ok, checkParameters_eq_ok, requireTransition_eq_ok, Except.ok.injEq]
  constructor
  · rintro ⟨hc, hr, value, ⟨hv, hs⟩, members, ⟨hp, hm⟩, transition, ⟨hx, hd⟩, rfl⟩
    refine ⟨⟨hc, hr, hv, hp, transition, hx, hd⟩, ?_⟩
    simp [Pass.toDraft, settle, hs, hm, ← hd]
  · rintro ⟨⟨hc, hr, hv, hp, transition, hx, hd⟩, hs⟩
    obtain ⟨common, result, parameters, path, next⟩ := d
    simp only [Pass.toDraft, settle, mk.injEq] at hs
    obtain ⟨rfl, hs, rfl, rfl, rfl⟩ := hs
    obtain rfl : p.transition = transition := by simpa using hd
    exact ⟨hc, hr, p.result, ⟨hv, hs⟩, p.parameters, ⟨hp, rfl⟩, p.transition, ⟨hx, rfl⟩, rfl⟩

@[simp]
theorem Pass.build_settle (p : Pass) : p.settle.build = p.build := by
  simp [build, settle]

end Draft

/-! ### States that wait -/

/-- What is asked of a delay. -/
def Delay.Valid : Delay → Prop
  | seconds _ => True
  | secondsPath path | timestampPath path => Path.IsPath .reference path.toList
  | timestamp t => t.InRange

theorem Delay.check_eq_ok {d e : Delay} : d.check = .ok e ↔ d.Valid ∧ e = d := by
  cases d <;> simp [check, Valid, @eq_comm _ e]

theorem requireDelay_eq_ok {o : Option Delay} {d : Delay} :
    requireDelay o = .ok d ↔ d.Valid ∧ some d = o := by
  cases o with
  | none => simp [requireDelay]
  | some e =>
    simp only [requireDelay, Delay.check_eq_ok, Option.some.injEq]
    exact ⟨fun ⟨h, he⟩ => ⟨he ▸ h, he⟩, fun ⟨h, he⟩ => ⟨he ▸ h, he⟩⟩

/-- The draft of a state that waits. -/
def Wait.toDraft (w : Wait) : Draft.Wait :=
  { w.toCommon with delay := some w.delay, transition := some w.transition }

/-- What is asked of a state that waits. -/
structure Draft.Wait.Valid (w : Draft.Wait) : Prop where
  common : w.toCommon.Valid
  delay : ∃ d, d.Valid ∧ some d = w.delay
  transition : ∃ u, u.Named ∧ w.transition = some u

theorem Draft.Wait.build_eq_ok {d : Draft.Wait} {w : Workflow.Wait} :
    d.build = .ok w ↔ d.Valid ∧ w.toDraft = d := by
  simp only [build, bind_eq_ok, exists_unit, Common.check_eq_ok, requireDelay_eq_ok,
    requireTransition_eq_ok, Except.ok.injEq]
  constructor
  · rintro ⟨hc, delay, ⟨hd, hs⟩, transition, ⟨hx, ht⟩, rfl⟩
    refine ⟨⟨hc, ⟨delay, hd, hs⟩, transition, hx, ht⟩, ?_⟩
    simp [Wait.toDraft, hs, ← ht]
  · rintro ⟨⟨hc, ⟨delay, hd, hs⟩, transition, hx, ht⟩, rfl⟩
    obtain rfl : delay = w.delay := by simpa [Wait.toDraft] using hs
    obtain rfl : w.transition = transition := by simpa [Wait.toDraft] using ht
    exact ⟨hc, w.delay, ⟨hd, rfl⟩, w.transition, ⟨hx, rfl⟩, rfl⟩

/-! ### States that choose -/

/-- The draft of a rule. -/
def Rule.toDraft (r : Rule) : Draft.Rule :=
  ⟨some r.condition.toDraft, some r.transition⟩

/-- The draft of a state that chooses. -/
def Choice.toDraft (c : Choice) : Draft.Choice :=
  { c.toCommon with rules := c.rules.map Rule.toDraft, default := c.default }

namespace Draft

/-- What is asked of a rule: a condition, and the name of a state. -/
structure Rule.Valid (r : Rule) : Prop where
  condition : ∃ c, c.Valid ∧ some c = r.condition
  transition : ∃ name, name ≠ "" ∧ some (.next name) = r.transition

theorem Rule.build_eq_ok {d : Rule} {r : Workflow.Rule} :
    d.build = .ok r ↔ d.Valid ∧ r.condition.Typed ∧ r.toDraft = d := by
  obtain ⟨condition, transition⟩ := d
  rcases condition with _ | c
  · simp only [build, bind_eq_ok, throw_ne_ok, false_and, exists_false, false_iff]
    rintro ⟨⟨⟨c, -, hc⟩, -⟩, -⟩
    exact Option.some_ne_none c hc
  rcases transition with _ | name | _
  · simp only [build, bind_eq_ok, throw_ne_ok, false_and, and_false, exists_false, false_iff]
    rintro ⟨⟨-, ⟨name, -, hn⟩⟩, -⟩
    exact Option.some_ne_none _ hn
  · simp only [build, bind_eq_ok, Condition.build_eq_ok, Transition.check_eq_ok, pure_eq_ok]
    constructor
    · rintro ⟨c, ⟨hc, ht, rfl⟩, u, ⟨hu, rfl⟩, rfl⟩
      exact ⟨⟨⟨_, hc, rfl⟩, name, fun h => hu (by rw [h]), rfl⟩, ht, rfl⟩
    · rintro ⟨⟨⟨c, hc, hs⟩, name, hn, hx⟩, ht, hr⟩
      simp only [Rule.toDraft, mk.injEq, Option.some.injEq] at hs hx hr
      obtain rfl := hs
      exact ⟨r.condition, ⟨hc, ht, hr.1⟩, r.transition, ⟨by simp [hr.2, ← hx, Transition.Named, hn],
        hr.2.symm⟩, rfl⟩
  · simp only [build, bind_eq_ok, throw_ne_ok, false_and, and_false, exists_false, false_iff]
    rintro ⟨⟨-, ⟨name, -, hn⟩⟩, -⟩
    simp at hn

/-- What is asked of a state that chooses. -/
structure Choice.Valid (c : Choice) : Prop where
  common : c.toCommon.Valid
  nonempty : c.rules ≠ []
  rules : ∀ r ∈ c.rules, r.Valid
  default : c.default ≠ some ""

theorem Choice.build_eq_ok {d : Choice} {c : Workflow.Choice} :
    d.build = .ok c ↔ d.Valid ∧ (∀ r ∈ c.rules, r.condition.Typed) ∧ c.toDraft = d := by
  have each (bs : List Workflow.Rule) := @Checked.inTurn_eq_ok _ _
    (fun index _ => .item "Choices" index) _ _ _ _ (fun _ _ => Rule.build_eq_ok) 0 d.rules bs
  simp only [build, bind_eq_ok, exists_unit, Common.check_eq_ok, ite_throw_eq_ok, Checked.each,
    each, List.isEmpty_iff, pure_eq_ok]
  constructor
  · rintro ⟨hc, hn, rules, ⟨hv, ht, hr⟩, hd, rfl⟩
    refine ⟨⟨hc, hn, hv, hd⟩, ht, ?_⟩
    simp [Choice.toDraft, hr]
  · rintro ⟨⟨hc, hn, hv, hd⟩, ht, rfl⟩
    exact ⟨hc, hn, c.rules, ⟨hv, ht, rfl⟩, hd, rfl⟩

end Draft

end Workflow
