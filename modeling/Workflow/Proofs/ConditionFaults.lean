import Workflow.Proofs.FirstFaults
import Workflow.Proofs.Validity

/-!
# Building conditions

A draft of a condition is a tree, and building it looks at the nodes of that tree one by one, from
left to right and every node before its parts. It stops at the first node at which something is
wrong, and the defect is located by the way from the root to that node. When nothing is wrong, what
is built is the same tree with a comparator at every leaf.

## Main definitions

* `Draft.Condition.nodes`: the nodes of a draft in depth-first order, with the ways to them
* `Draft.Condition.Offends`: what is wrong with a node by itself
* `Condition.Realizes`: a condition is the tree of a draft, with its comparators resolved

## Main results

* `Draft.Condition.build_eq_error_iff`: building stops at the first node that offends
* `Draft.Condition.build_exact`: when a draft can be built, what is built, and where building stops
-/

namespace Workflow

namespace Draft

/-! ### Nodes -/

/-- A node as seen from a value that holds, behind a step, the tree it is in. -/
def beneath (step : Step) (node : Location × Condition) : Location × Condition :=
  (step :: node.1, node.2)

namespace Condition

mutual

/-- The nodes of a draft in depth-first order, from left to right and each before its parts, with
the ways to them. -/
def nodes : Condition → List (Location × Condition)
  | comparison operator path value => [([], comparison operator path value)]
  | and parts => ([], and parts) :: nodesOf "And" 0 parts
  | or parts => ([], or parts) :: nodesOf "Or" 0 parts
  | not part => ([], not part) :: (nodes part).map (beneath (.key "Not"))

/-- The nodes of the parts of a combination from an index on. -/
def nodesOf (key : String) (index : Nat) : List Condition → List (Location × Condition)
  | [] => []
  | part :: parts =>
    (nodes part).map (beneath (.item key index)) ++ nodesOf key (index + 1) parts

end

/-- The path of a comparison. -/
def path? : Condition → Option String
  | comparison _ path _ => some path
  | _ => none

/-- What is wrong with a node by itself: a combination has no parts, or a comparison has a path that
is no reference path, else no comparator for its value and operator, else a value that cannot be
written. -/
inductive Offends : Condition → Defect → Prop
  | noParts : Offends (and []) (.missing "And")
  | noAlternatives : Offends (or []) (.missing "Or")
  | badPath {operator : Operator} {path : String} {value : Expected} {refusal : Path.Refusal}
      (refused : Path.check .reference path = .error refusal) :
      Offends (comparison operator path value)
        ⟨[.key "Variable"], .badPath path .reference refusal⟩
  | mismatch {operator : Operator} {path : String} {value : Expected}
      (selects : Path.IsPath .reference path.toList) (family : value.family = .boolean)
      (ordered : operator ≠ .equals) :
      Offends (comparison operator path value)
        ⟨[.key "Condition"], .mismatch path operator .boolean⟩
  | notFinite {operator : Operator} {path : String} {x : Numeric}
      (selects : Path.IsPath .reference path.toList) (infinite : x.isFinite = false) :
      Offends (comparison operator path (.numeric x))
        (.invalid ("Numeric" ++ operator.name) (.notFinite x))
  | yearOutside {operator : Operator} {path : String} {t : Timestamp}
      (selects : Path.IsPath .reference path.toList) (far : ¬t.InRange) :
      Offends (comparison operator path (.timestamp t))
        (.invalid ("Timestamp" ++ operator.name) (.yearOutside t.year))

/-- Something is wrong with a node by itself. -/
def Offensive (d : Condition) : Prop := ∃ fault, d.Offends fault

/-- A field is found at fault in the node itself. -/
theorem Offends.location_ne_nil {d : Condition} {fault : Defect} (h : d.Offends fault) :
    fault.location ≠ [] := by
  cases h <;> exact List.cons_ne_nil _ _

end Condition

/-! ### Comparisons -/

theorem checkPath_eq_error {field : String} {g : Path.Grammar} {text : String} {d : Defect} :
    checkPath field g text = .error d ↔
      ∃ refusal, Path.check g text = .error refusal ∧
        ⟨[.key field], .badPath text g refusal⟩ = d := by
  unfold checkPath
  cases Path.check g text with
  | ok _ => simp
  | error refusal => simp

theorem checkTimestamp_eq_error {field : String} {t : Timestamp} {d : Defect} :
    checkTimestamp field t = .error d ↔ ¬t.InRange ∧ .invalid field (.yearOutside t.year) = d := by
  by_cases h : 0 ≤ t.year ∧ t.year ≤ 9999 <;>
    simp [checkTimestamp, Timestamp.checkRange, Timestamp.InRange, h]

theorem resolve?_eq_none {family : Family} {operator : Operator} :
    Comparator.resolve? family operator = none ↔ family = .boolean ∧ operator ≠ .equals := by
  unfold Comparator.resolve?
  split
  · next h => simpa using h
  · next h => simpa using h

/-- All families but that of truth values have every operator. -/
theorem exists_comparator {family : Family} (operator : Operator) (h : family ≠ .boolean) :
    ∃ c, Comparator.resolve? family operator = some c ∧ c.key = family.name ++ operator.name := by
  cases hr : Comparator.resolve? family operator with
  | none => exact absurd (resolve?_eq_none.mp hr).1 h
  | some c =>
    obtain ⟨rfl, rfl⟩ := Comparator.resolve?_eq_some.mp hr
    exact ⟨c, rfl, rfl⟩

/-- **A comparison is refused for what is wrong with it by itself**: its path comes before its
comparator, and that before its value. -/
theorem buildComparison_eq_error {operator : Operator} {path : String} {value : Expected}
    {fault : Defect} :
    buildComparison operator path value = .error fault ↔
      (Condition.comparison operator path value).Offends fault := by
  constructor
  · intro h
    -- a check is only reached when those before it have passed
    rcases bind_eq_error.mp h with path_refused | ⟨⟨⟩, hp, refused⟩
    · obtain ⟨refusal, refused, rfl⟩ := checkPath_eq_error.mp path_refused
      exact .badPath refused
    have selects := checkPath_eq_ok.mp hp
    split at refused
    · next unresolved =>
      obtain ⟨family, ordered⟩ := resolve?_eq_none.mp unresolved
      cases refused
      rw [family]
      exact .mismatch selects family ordered
    · next c resolved =>
      obtain ⟨hf, rfl⟩ := Comparator.resolve?_eq_some.mp resolved
      replace refused : checkExpected c value = .error fault := by
        simpa [bind_eq_error] using refused
      -- the key of the comparator is the family of the value with the operator that was asked for
      cases value with
      | string _ => cases refused
      | boolean _ => cases refused
      | numeric x =>
        by_cases finite : x.isFinite
        · simp [checkExpected, finite] at refused
        · simp only [checkExpected, if_neg finite, Except.error.injEq] at refused
          rw [← refused, Comparator.key, hf]
          exact .notFinite selects (by simpa using finite)
      | timestamp t =>
        obtain ⟨far, rfl⟩ := checkTimestamp_eq_error.mp refused
        rw [Comparator.key, hf]
        exact .yearOutside selects far
  · intro h
    cases h with
    | badPath refused =>
      rw [buildComparison, checkPath_eq_error.mpr ⟨_, refused, rfl⟩, error_bind]
    | mismatch selects family ordered =>
      rw [buildComparison, checkPath_eq_ok.mpr selects, ok_bind,
        resolve?_eq_none.mpr ⟨family, ordered⟩, family]
    | @notFinite _ _ x selects infinite =>
      have family : (Expected.numeric x).family ≠ .boolean := by simp [Expected.family]
      obtain ⟨c, resolved, key⟩ := exists_comparator operator family
      rw [buildComparison, checkPath_eq_ok.mpr selects, ok_bind, resolved]
      simp [checkExpected, infinite, key, Expected.family, Family.name]
    | @yearOutside _ _ t selects far =>
      have family : (Expected.timestamp t).family ≠ .boolean := by simp [Expected.family]
      obtain ⟨c, resolved, key⟩ := exists_comparator operator family
      rw [buildComparison, checkPath_eq_ok.mpr selects, ok_bind, resolved]
      simp [checkExpected, checkTimestamp_eq_error.mpr ⟨far, rfl⟩, key, Expected.family,
        Family.name]

/-! ### Trees -/

namespace Condition

theorem Offends.unique {d : Condition} {f f' : Defect} (h : d.Offends f) (h' : d.Offends f') :
    f = f' := by
  cases d with
  | comparison operator path value =>
    have stopped := buildComparison_eq_error.mpr h
    exact Except.error.inj (stopped.symm.trans (buildComparison_eq_error.mpr h'))
  | and parts =>
    cases h
    cases h'
    rfl
  | or parts =>
    cases h
    cases h'
    rfl
  | not part => cases h

/-- A defect is that of the first of some nodes that offends, as seen from the root. -/
def FirstOffence (nodes : List (Location × Condition)) (e : Defect) : Prop :=
  ∃ before way node fault, FirstIn (fun n => n.2.Offensive) nodes before (way, node) ∧
    node.Offends fault ∧ fault.behind way = e

theorem FirstOffence.unique {nodes : List (Location × Condition)} {e e' : Defect}
    (h : FirstOffence nodes e) (h' : FirstOffence nodes e') : e = e' := by
  obtain ⟨_, way, node, fault, first, offends, rfl⟩ := h
  obtain ⟨_, way', node', fault', first', offends', rfl⟩ := h'
  obtain ⟨rfl, rfl⟩ := Prod.mk.inj (first.unique first').2
  rw [offends.unique offends']

/-- Some nodes govern a result: it is there when none of them offends, and is kept from being there
by the first one that does. -/
def Govern {α : Type} (nodes : List (Location × Condition)) : Checked α → Prop
  | .ok _ => ∀ n ∈ nodes, ¬n.2.Offensive
  | .error e => FirstOffence nodes e

namespace Govern

variable {α β : Type} {ns ms : List (Location × Condition)} {x : Checked α}

/-- The nodes of two steps govern the steps in turn. -/
theorem bind {f : α → Checked β} (hx : Govern ns x) (hf : ∀ a, x = .ok a → Govern ms (f a)) :
    Govern (ns ++ ms) (x >>= f) := by
  cases x with
  | error e =>
    obtain ⟨before, way, node, fault, first, offends, rfl⟩ := hx
    exact ⟨before, way, node, fault, first.append_right ms, offends, rfl⟩
  | ok a =>
    -- the first part is without fault, so the first fault is that of the second
    have second := hf a rfl
    rw [ok_bind]
    cases hb : f a with
    | ok b =>
      rw [hb] at second
      exact List.forall_mem_append.mpr ⟨hx, second⟩
    | error e =>
      rw [hb] at second
      obtain ⟨before, way, node, fault, first, offends, rfl⟩ := second
      exact ⟨ns ++ before, way, node, fault, first.append_left hx, offends, rfl⟩

/-- A last step that cannot fail has no nodes. -/
theorem map (hx : Govern ns x) (f : α → β) : Govern ns (x >>= fun a => .ok (f a)) := by
  have last : Govern (ns ++ []) (x >>= fun a => .ok (f a)) := hx.bind fun _ _ => by simp [Govern]
  rwa [List.append_nil] at last

/-- Nodes govern the same from a value around their tree. -/
theorem within (hx : Govern ns x) (step : Step) :
    Govern (ns.map (beneath step)) (x.within step) := by
  cases x with
  | ok a => exact List.forall_mem_map.mpr hx
  | error e =>
    obtain ⟨before, way, node, fault, first, offends, rfl⟩ := hx
    have seen : FirstIn (fun n => n.2.Offensive) (ns.map (beneath step)) _ (step :: way, node) :=
      first.map (f := beneath step) (a := (way, node)) fun _ => Iff.rfl
    exact ⟨_, _, _, fault, seen, offends, rfl⟩

/-- A node with which nothing is wrong leaves everything to those behind it. -/
theorem cons {n : Location × Condition} (hn : ¬n.2.Offensive) (hx : Govern ns x) :
    Govern (n :: ns) x := by
  cases x with
  | ok a => exact List.forall_mem_cons.mpr ⟨hn, hx⟩
  | error e =>
    obtain ⟨before, way, node, fault, first, offends, rfl⟩ := hx
    exact ⟨_, way, node, fault, first.cons hn, offends, rfl⟩

end Govern

mutual

/-- The nodes of a tree govern how it is built. -/
theorem govern_build (d : Condition) : Govern d.nodes d.build := by
  -- the root comes first: a combination offends if it has no parts, and is fine otherwise
  match d with
  | comparison operator path value =>
    refine Govern.map (x := buildComparison operator path value) ?_ _
    cases h : buildComparison operator path value with
    | ok c =>
      have fine : ¬(comparison operator path value).Offensive := by
        rintro ⟨fault, offends⟩
        cases h.symm.trans (buildComparison_eq_error.mpr offends)
      simpa [Govern, nodes] using fine
    | error fault =>
      have offends := buildComparison_eq_error.mp h
      exact ⟨[], [], _, fault, .head ⟨fault, offends⟩, offends, rfl⟩
  | and [] => exact ⟨[], [], _, _, .head ⟨_, .noParts⟩, .noParts, rfl⟩
  | or [] => exact ⟨[], [], _, _, .head ⟨_, .noAlternatives⟩, .noAlternatives, rfl⟩
  | and (part :: parts) =>
    exact ((govern_buildParts "And" 0 (part :: parts)).map Workflow.Condition.and).cons nofun
  | or (part :: parts) =>
    exact ((govern_buildParts "Or" 0 (part :: parts)).map Workflow.Condition.or).cons nofun
  | not part =>
    exact (((govern_build part).within (.key "Not")).map Workflow.Condition.not).cons nofun

theorem govern_buildParts (key : String) (index : Nat) (ds : List Condition) :
    Govern (nodesOf key index ds) (buildParts key index ds) := by
  match ds with
  | [] => exact fun n hn => nomatch hn
  | d :: ds =>
    have first := (govern_build d).within (.item key index)
    exact first.bind fun c _ => (govern_buildParts key (index + 1) ds).map (c :: ·)

end

/-- **Building stops at the first node that offends.** -/
theorem build_eq_error_iff {d : Condition} {e : Defect} :
    d.build = .error e ↔ FirstOffence d.nodes e := by
  have governed := govern_build d
  constructor
  · intro h
    rwa [h] at governed
  · intro h
    cases hb : d.build with
    | ok c =>
      rw [hb] at governed
      obtain ⟨_, _, _, _, first, -⟩ := h
      exact absurd first.holds (governed _ first.mem)
    | error e' =>
      rw [hb] at governed
      rw [h.unique governed]

end Condition

end Draft

/-! ### What is built -/

namespace Condition

mutual

/-- A condition realizes a draft: it is the same tree, and the comparator at a leaf is the one of
the operator that is asked for and of the family of the value. -/
def Realizes : Condition → Draft.Condition → Prop
  | comparison c, .comparison operator path value =>
    c.comparator.family = value.family ∧ c.comparator.operator = operator ∧
      c.path = path ∧ c.expected = value
  | and cs, .and ds | or cs, .or ds => RealizesParts cs ds
  | not c, .not d => Realizes c d
  | _, _ => False

/-- The parts of a combination realize drafts one by one. -/
def RealizesParts : List Condition → List Draft.Condition → Prop
  | [], [] => True
  | c :: cs, d :: ds => Realizes c d ∧ RealizesParts cs ds
  | _, _ => False

end

mutual

theorem realizes_iff {c : Condition} {d : Draft.Condition} :
    c.Realizes d ↔ c.Typed ∧ c.toDraft = d := by
  cases c with
  | comparison c =>
    cases d with
    | comparison operator path value =>
      simp only [Realizes, Typed, toDraft, Draft.Condition.comparison.injEq]
      constructor
      · rintro ⟨family, rfl, rfl, rfl⟩
        exact ⟨family, rfl, rfl, rfl⟩
      · rintro ⟨family, rfl, rfl, rfl⟩
        exact ⟨family, rfl, rfl, rfl⟩
    | _ => simp [Realizes, toDraft]
  | and cs => cases d <;> simp [Realizes, Typed, toDraft, realizesParts_iff]
  | or cs => cases d <;> simp [Realizes, Typed, toDraft, realizesParts_iff]
  | not c => cases d <;> simp [Realizes, Typed, toDraft, realizes_iff]

theorem realizesParts_iff {cs : List Condition} {ds : List Draft.Condition} :
    RealizesParts cs ds ↔ TypedParts cs ∧ toDrafts cs = ds := by
  cases cs with
  | nil => cases ds <;> simp [RealizesParts, TypedParts, toDrafts]
  | cons c cs =>
    cases ds with
    | nil => simp [RealizesParts, toDrafts]
    | cons d ds =>
      simp only [RealizesParts, TypedParts, toDrafts, List.cons.injEq, realizes_iff,
        realizesParts_iff]
      exact and_and_and_comm

end

/-- The paths of some nodes are the same wherever their tree is. -/
theorem filterMap_beneath (step : Step) (nodes : List (Location × Draft.Condition)) :
    ((nodes.map (Draft.beneath step)).filterMap fun n => n.2.path?) =
      nodes.filterMap fun n => n.2.path? := by
  rw [List.filterMap_map]
  rfl

mutual

/-- The paths of a condition are those of the leaves of its draft, from left to right. -/
theorem paths_eq (c : Condition) : c.paths = c.toDraft.nodes.filterMap fun n => n.2.path? := by
  cases c with
  | comparison c => rfl
  | and cs => exact pathsOf_eq "And" 0 cs
  | or cs => exact pathsOf_eq "Or" 0 cs
  | not c =>
    rw [toDraft, Draft.Condition.nodes, List.filterMap_cons_none rfl, filterMap_beneath, paths]
    exact paths_eq c

theorem pathsOf_eq (key : String) (index : Nat) (cs : List Condition) :
    pathsOf cs =
      (Draft.Condition.nodesOf key index (toDrafts cs)).filterMap fun n => n.2.path? := by
  -- the key and the index are only in the ways to the leaves, which are dropped
  cases cs with
  | nil => rfl
  | cons c cs =>
    rw [toDrafts, Draft.Condition.nodesOf, List.filterMap_append, filterMap_beneath, pathsOf,
      paths_eq c, pathsOf_eq key (index + 1) cs]

end

end Condition

namespace Draft.Condition

/-- **Building a condition is exact.** It succeeds exactly when every combination has a part and
every comparison has a reference path, a comparator for its value and operator, and a value that can
be written. What is built then is the tree of the draft, whose paths are those of the leaves from
left to right. Otherwise the defect is that of the first node that offends, and its field is read
behind the way to that node. -/
theorem build_exact (d : Condition) :
    ((∃ c, d.build = .ok c) ↔ d.Valid) ∧
    (∀ c, d.build = .ok c →
      c.Realizes d ∧ c.paths = d.nodes.filterMap fun n => n.2.path?) ∧
    ∀ e, d.build = .error e ↔
      ∃ before way node fault, FirstIn (fun n => n.2.Offensive) d.nodes before (way, node) ∧
        node.Offends fault ∧ fault.behind way = e ∧ way.lead ++ fault.field = e.field := by
  refine ⟨?_, fun c h => ?_, fun e => ?_⟩
  · constructor
    · rintro ⟨c, h⟩
      exact (build_eq_ok.mp h).1
    · intro valid
      obtain ⟨c, typed, drafted⟩ := exists_typed valid
      exact ⟨c, build_eq_ok.mpr ⟨valid, typed, drafted⟩⟩
  · obtain ⟨-, typed, rfl⟩ := build_eq_ok.mp h
    exact ⟨Condition.realizes_iff.mpr ⟨typed, rfl⟩, c.paths_eq⟩
  · rw [build_eq_error_iff]
    constructor
    · rintro ⟨before, way, node, fault, first, offends, rfl⟩
      have read := Defect.field_behind offends.location_ne_nil way
      exact ⟨before, way, node, fault, first, offends, rfl, read.symm⟩
    · rintro ⟨before, way, node, fault, first, offends, rfl, -⟩
      exact ⟨before, way, node, fault, first, offends, rfl⟩

end Draft.Condition

end Workflow
