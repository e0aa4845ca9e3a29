import Workflow.Proofs.NormalFields
import Workflow.Proofs.RuleObjects

/-!
# The normal forms of rules

A condition that was built has the normal form of the object it was read from for its own object,
and so has a rule. The object may have its members in any order, and numbers and timestamps that
are written in another way.

## Main results

* `ruleMember_expected`: the value that is compared with, in normal form
* `rule_eq_condition`, `rule_eq`: the normal form of the object of a condition or a rule
-/

namespace Workflow.NormalForm

open Json (get?)
open Draft (askedKeys askedOnce)

/-! ### Values that are compared with -/

/-- A value that is compared with has what was read from it for its normal form. -/
theorem ruleMember_expected {c : Comparator} {value : Json} {e : Expected}
    (h : Expected.ofJson? c.family value = some e) : ruleMember c.key value = e.toJson := by
  have known : Comparator.ofKey? c.key = some c := Comparator.ofKey?_eq_some.mpr rfl
  unfold Expected.ofJson? at h
  split at h
  · next text hf =>
    obtain rfl := Option.some.inj h
    simp [ruleMember, expected, known, hf, Expected.toJson]
  · next n hf =>
    simp only [ruleMember, expected, known, Option.map_some, hf, numeric]
    split at h
    · next i hi =>
      obtain rfl := Option.some.inj h
      rw [hi, Json.Whole.toInt64?_eq_some.mp hi]
      rfl
    · next hi =>
      -- an integer beyond 64 bits is written as the double it was read as
      obtain rfl := Option.some.inj h
      rw [hi]
      rfl
  · next x hf =>
    obtain rfl := Option.some.inj h
    simp [ruleMember, expected, known, hf, numeric, Expected.toJson, Datum.ofDouble]
  · next text hf =>
    split at h
    · next instant hp =>
      obtain rfl := Option.some.inj h
      simp [ruleMember, expected, known, hf, timestamp, hp, Expected.toJson]
    · cases h
  · next b hf =>
    obtain rfl := Option.some.inj h
    simp [ruleMember, expected, known, hf, Expected.toJson]
  · cases h

theorem toJson_ne_null {e : Expected} (h : e.Writable) : e.toJson ≠ .null := by
  cases e with
  | numeric value =>
    cases value with
    | integer n => nofun
    | double x =>
      cases x with
      | finite x => nofun
      | _ => cases h
  | _ => nofun

/-! ### Conditions -/

/-- What an object asks for stands under the one key it asks for. -/
theorem ofAsked_of_askedKeys {key : String} {members : Members}
    (h : askedKeys members = [key]) (subject : Option Json) :
    ∃ value, get? key members = some value ∧
      Draft.Condition.ofAsked subject members = Draft.Condition.ofAsked subject [(key, value)] := by
  induction members with
  | nil => cases h
  | cons member members ih =>
    obtain ⟨k, v⟩ := member
    by_cases hk : k = "Variable"
    · subst hk
      -- the subject is not asked for, and the members behind it ask for the same key
      have h' : askedKeys members = [key] := by simpa [askedKeys] using h
      obtain ⟨value, hg, hs⟩ := ih h'
      have asked : key ∈ askedKeys members := by simp [h']
      have hne : "Variable" ≠ key := by
        rintro rfl
        simp [askedKeys] at asked
      exact ⟨value, by rw [get?, if_neg hne, hg], by rw [Draft.Condition.ofAsked, if_pos rfl, hs]⟩
    · have he : k = key ∧ askedKeys members = [] := by simpa [askedKeys, hk] using h
      obtain ⟨rfl, -⟩ := he
      exact ⟨v, by rw [get?, if_pos rfl], by simp only [Draft.Condition.ofAsked, if_neg hk]⟩

/-- An object is read as a condition only when it asks for one thing. -/
theorem exists_askedKeys_of_ofMembers {members : Members} {d : Draft.Condition}
    (h : Draft.Condition.ofMembers members = .ok d) : ∃ key, askedKeys members = [key] := by
  rw [Draft.Condition.ofMembers, askedOnce] at h
  split at h
  · cases h
  · next key hk => exact ⟨key, hk⟩
  · cases h

/-- The object of a condition asks for one thing, and there is nothing else in it but a path. -/
theorem asked_of_ofMembers {members : Members} (hn : (members.map Prod.fst).Nodup)
    {d : Draft.Condition} (h : Draft.Condition.ofMembers members = .ok d) :
    ∃ key value, Document.Shape.KeysIn ["Variable", key] members ∧ key ≠ "Variable" ∧
      get? key members = some value ∧
      Draft.Condition.ofAsked (get? "Variable" members) [(key, value)] = .ok d := by
  obtain ⟨key, hk⟩ := exists_askedKeys_of_ofMembers h
  obtain ⟨value, hg, hs⟩ := ofAsked_of_askedKeys hk (get? "Variable" members)
  have asked (k : String) (hm : k ∈ members.map Prod.fst) (hne : k ≠ "Variable") : k = key := by
    have hmem : k ∈ askedKeys members := List.mem_filter.mpr ⟨hm, by simpa using hne⟩
    simpa [hk] using hmem
  refine ⟨key, value, ⟨hn, fun k hm => ?_⟩, ?_, hg, ?_⟩
  · by_cases hne : k = "Variable"
    · simp [hne]
    · simp [asked k hm hne]
  · have hmem : key ∈ askedKeys members := by simp [hk]
    simpa [askedKeys] using (List.mem_filter.mp hmem).2
  · rw [Draft.Condition.ofMembers, askedOnce, hk] at h
    rw [← hs]
    exact h

theorem family_of_ofJson? {family : Family} {value : Json} {e : Expected}
    (h : Expected.ofJson? family value = some e) : e.family = family := by
  unfold Expected.ofJson? at h
  split at h
  · obtain rfl := Option.some.inj h
    rfl
  · split at h <;> obtain rfl := Option.some.inj h <;> rfl
  · obtain rfl := Option.some.inj h
    rfl
  · split at h
    · obtain rfl := Option.some.inj h
      rfl
    · cases h
  · obtain rfl := Option.some.inj h
    rfl
  · cases h

theorem key_notMem_policyKeys (c : Comparator) : c.key ∉ policyKeys := by
  have names : ∀ d ∈ Comparator.all, d.key ∉ policyKeys := by decide
  exact names c (Comparator.mem_all c)

/-- A comparator is known by its family and its operator. -/
theorem comparator_ext {c d : Comparator} (hf : c.family = d.family)
    (ho : c.operator = d.operator) : c = d := by
  have same := Comparator.resolve?_eq_some.mpr ⟨hf, ho⟩
  rwa [Comparator.resolve?_eq_some.mpr ⟨rfl, rfl⟩, Option.some.injEq, eq_comm] at same

theorem ofComparison_eq_ok {subject : Option Json} {key : String} {value : Json}
    {d : Draft.Condition} :
    Draft.Condition.ofComparison subject key value = .ok d ↔
      ∃ c path e, Comparator.key c = key ∧ subject = some (.string path) ∧
        Expected.ofJson? c.family value = some e ∧ d = .comparison c.operator path e := by
  unfold Draft.Condition.ofComparison
  cases hk : Comparator.ofKey? key with
  | none =>
    have unknown (c : Comparator) : c.key ≠ key := fun he => by
      simp [Comparator.ofKey?_eq_some.mpr he] at hk
    simp [unknown]
  | some c =>
    obtain rfl := Comparator.ofKey?_eq_some.mp hk
    have unique {c' : Comparator} (he : c'.key = c.key) : c' = c := Comparator.key_injective he
    rcases subject with _ | v
    · simp
    · cases v with
      | string path =>
        cases hv : Expected.ofJson? c.family value with
        | none =>
          simp only [pure_bind, hv, throw_ne_ok, false_iff]
          rintro ⟨c', _, e, he, -, hf, -⟩
          rw [unique he, hv] at hf
          cases hf
        | some e =>
          simp only [pure_bind, hv, pure_eq_ok]
          constructor
          · rintro rfl
            exact ⟨c, path, e, rfl, rfl, hv, rfl⟩
          · rintro ⟨c', path', e', he, hp, hf, rfl⟩
            obtain rfl := unique he
            obtain rfl : path = path' := by simpa using hp
            rw [hv, Option.some.injEq] at hf
            rw [hf]
      | _ => simp

/-- What a comparison says was found under its key and under the key of its path. -/
theorem found_of_ofComparison {subject : Option Json} {key : String} {value : Json}
    {c : Comparison} (ht : c.comparator.family = c.expected.family)
    (h : Draft.Condition.ofComparison subject key value =
      .ok (.comparison c.comparator.operator c.path c.expected)) :
    key = c.comparator.key ∧ subject = some (.string c.path) ∧
      Expected.ofJson? c.comparator.family value = some c.expected := by
  obtain ⟨comparator, path, e, rfl, rfl, hv, he⟩ := ofComparison_eq_ok.mp h
  obtain ⟨ho, rfl, rfl⟩ := Draft.Condition.comparison.inj he
  have same := comparator_ext (ht.trans (family_of_ofJson? hv)) ho
  rw [same]
  exact ⟨rfl, rfl, hv⟩

/-- What a key asked for, told from what was made of it. -/
theorem asked_of_ofAsked {subject : Option Json} {key : String} {value : Json}
    {d : Draft.Condition} (hk : key ≠ "Variable")
    (h : Draft.Condition.ofAsked subject [(key, value)] = .ok d) :
    match d with
    | .comparison .. => Draft.Condition.ofComparison subject key value = .ok d
    | .and parts => key = "And" ∧ subject = none ∧ Draft.Condition.ofParts key value = .ok parts
    | .or parts => key = "Or" ∧ subject = none ∧ Draft.Condition.ofParts key value = .ok parts
    | .not part => key = "Not" ∧ subject = none ∧ Draft.Condition.ofNegated value = .ok part := by
  have unasked : Draft.withoutVariable key subject = .ok () → subject = none := by
    cases subject <;> simp [Draft.withoutVariable]
  rw [Draft.Condition.ofAsked, if_neg hk] at h
  by_cases ha : key = "And"
  · simp only [Draft.Asked.ofKey, if_pos ha, bind_eq_ok, exists_unit, Except.ok.injEq] at h
    obtain ⟨hs, parts, hp, rfl⟩ := h
    exact ⟨ha, unasked hs, hp⟩
  by_cases ho : key = "Or"
  · simp only [Draft.Asked.ofKey, if_neg ha, if_pos ho, bind_eq_ok, exists_unit,
      Except.ok.injEq] at h
    obtain ⟨hs, parts, hp, rfl⟩ := h
    exact ⟨ho, unasked hs, hp⟩
  by_cases hn : key = "Not"
  · simp only [Draft.Asked.ofKey, if_neg ha, if_neg ho, if_pos hn, bind_eq_ok, exists_unit,
      Except.ok.injEq] at h
    obtain ⟨hs, part, hp, rfl⟩ := h
    exact ⟨hn, unasked hs, hp⟩
  · simp only [Draft.Asked.ofKey, if_neg ha, if_neg ho, if_neg hn] at h
    obtain ⟨_, _, _, -, -, -, rfl⟩ := ofComparison_eq_ok.mp h
    exact h

/-- The members of an object say a condition under one key and perhaps that of a path. -/
def Says (members : Members) (c : Condition) : Prop :=
  ∃ key, Document.Shape.KeysIn ["Variable", key] members ∧
    ["Variable", key].Sublist conditionKeys ∧
    Members.optional "Variable" id (said ruleMember members "Variable") ++
      Members.optional key id (said ruleMember members key) = c.toMembers

theorem Says.rule_eq {members : Members} {c : Condition} (h : Says members c) :
    rule (.object members) = .object c.toMembers := by
  obtain ⟨key, keys, order, same⟩ := h
  have sub : ["Variable", key].Sublist ruleKeys := order.trans (List.sublist_append_left _ _)
  rw [rule, ruleMembers_eq_rewrite, object_rewrite keys (by decide) sub, ← same]
  simp

theorem sublist_conditionKeys {key : String}
    (h : key ∈ Comparator.all.map Comparator.key ++ ["And", "Or", "Not"]) :
    ["Variable", key].Sublist conditionKeys :=
  List.Sublist.cons_cons _ (List.singleton_sublist.mpr h)

mutual

theorem says_of_ofMembers {c : Condition} (hv : c.toDraft.Valid) (ht : c.Typed)
    {members : Members} (hd : (Json.object members).Distinct)
    (h : Draft.Condition.ofMembers members = .ok c.toDraft) : Says members c := by
  obtain ⟨key, value, keys, hk, hg, ha⟩ := asked_of_ofMembers hd.1 h
  have asked := asked_of_ofAsked hk ha
  have below := hd.2.of_get? key hg
  cases c with
  | comparison c =>
    obtain ⟨rfl, hs, he⟩ := found_of_ofComparison ht asked
    -- what is compared with is never null, so it is not left out
    have heard : isSilent c.comparator.key c.expected.toJson = false :=
      isSilent_eq_false (toJson_ne_null hv.2.1) (key_notMem_policyKeys _)
    refine ⟨_, keys, sublist_conditionKeys ?_, ?_⟩
    · exact List.mem_append_left _ (List.mem_map_of_mem c.comparator.mem_all)
    · simp only [said, hs, hg, Option.bind_some, ruleMember_expected he, heard]
      rfl
  | and parts =>
    obtain ⟨rfl, hs, hp⟩ := asked
    cases value with
    | array items =>
      have same := ruleItems_eq hv.2 ht below hp
      refine ⟨_, keys, sublist_conditionKeys (by simp), ?_⟩
      simp [said, hs, hg, ruleMember, same, isSilent_eq_false, policyKeys, Condition.toMembers]
    | _ => cases hp
  | or parts =>
    obtain ⟨rfl, hs, hp⟩ := asked
    cases value with
    | array items =>
      have same := ruleItems_eq hv.2 ht below hp
      refine ⟨_, keys, sublist_conditionKeys (by simp), ?_⟩
      simp [said, hs, hg, ruleMember, same, isSilent_eq_false, policyKeys, Condition.toMembers]
    | _ => cases hp
  | not part =>
    obtain ⟨rfl, hs, hp⟩ := asked
    cases value with
    | object members =>
      have same := (says_of_ofMembers (c := part) hv ht below (mapError_eq_ok.mp hp)).rule_eq
      refine ⟨_, keys, sublist_conditionKeys (by simp), ?_⟩
      rw [rule] at same
      simp [said, hs, hg, ruleMember, same, isSilent_eq_false, policyKeys, Condition.toMembers]
    | _ => cases hp

theorem ruleItems_eq {cs : List Condition} (hv : Draft.Condition.ValidParts (Condition.toDrafts cs))
    (ht : Condition.TypedParts cs) {key : String} {index : Nat} {items : List Json}
    (hd : Json.DistinctItems items)
    (h : Draft.Condition.ofItems key index items = .ok (Condition.toDrafts cs)) :
    ruleItems items = Condition.toItems cs := by
  cases cs with
  | nil =>
    cases items with
    | nil => rfl
    | cons item items => simp [Draft.Condition.ofItems, Condition.toDrafts] at h
  | cons c cs =>
    cases items with
    | nil => simp [Draft.Condition.ofItems, Condition.toDrafts] at h
    | cons item items =>
      simp only [Draft.Condition.ofItems, bind_eq_ok, Except.ok.injEq, Condition.toDrafts,
        List.cons.injEq] at h
      obtain ⟨_, hitem, _, hitems, rfl, rfl⟩ := h
      cases item with
      | object members =>
        have first := (says_of_ofMembers hv.1 ht.1 hd.1 (mapError_eq_ok.mp hitem)).rule_eq
        have rest := ruleItems_eq hv.2 ht.2 hd.2 hitems
        rw [ruleItems, first, rest, Condition.toItems]
      | _ => cases hitem

end

/-! ### Rules -/

/-- Removing a key takes its member out and may move another one. -/
theorem perm_erase {key : String} {value : Json} {members : Members}
    (h : get? key members = some value) :
    members.Perm ((key, value) :: Json.erase key members) := by
  induction members with
  | nil => cases h
  | cons member members ih =>
    obtain ⟨k, v⟩ := member
    by_cases hk : k = key
    · subst hk
      obtain rfl : v = value := by simpa [get?] using h
      rw [Json.erase, if_pos rfl, List.perm_cons]
      -- the last member takes the place of the one that goes
      cases hl : members.getLast? with
      | none => rw [List.getLast?_eq_none_iff.mp hl]
      | some last =>
        obtain ⟨init, rfl⟩ := List.getLast?_eq_some_iff.mp hl
        rw [List.dropLast_concat]
        exact List.perm_append_singleton last init
    · rw [get?, if_neg hk] at h
      rw [Json.erase, if_neg hk]
      exact ((ih h).cons (k, v)).trans (.swap _ _ _)

theorem get?_perm {xs ys : Members} (h : xs.Perm ys) (hn : (xs.map Prod.fst).Nodup)
    (key : String) : get? key xs = get? key ys := by
  have hn' := (h.map Prod.fst).nodup_iff.mp hn
  apply Option.ext
  intro value
  constructor
  · exact fun hv => Json.get?_of_mem hn' (h.subset (Json.mem_of_get? hv))
  · exact fun hv => Json.get?_of_mem hn (h.symm.subset (Json.mem_of_get? hv))

theorem distinct_perm {xs ys : Members} (h : xs.Perm ys) (hd : (Json.object xs).Distinct) :
    (Json.object ys).Distinct :=
  ⟨(h.map Prod.fst).nodup_iff.mp hd.1,
    Json.distinctMembers_iff.mpr fun m hm => Json.distinctMembers_iff.mp hd.2 m (h.symm.subset hm)⟩

/-- The name of a rule's state and the condition beside it. -/
theorem parts_of_ofMembers {members : Members} {d : Draft.Rule}
    (h : Draft.Rule.ofMembers members = .ok d) :
    ∃ next condition, get? "Next" members = some (.string next) ∧
      Draft.Condition.ofMembers (Json.erase "Next" members) = .ok condition ∧
      d = ⟨some condition, some (.next next)⟩ := by
  unfold Draft.Rule.ofMembers at h
  split at h
  · cases h
  · next next hnext =>
    simp only [pure_bind, bind_eq_ok, pure_eq_ok] at h
    obtain ⟨condition, hc, rfl⟩ := h
    exact ⟨next, condition, hnext, hc, rfl⟩
  · cases h

/-- The object of a rule that was read has the rule for its normal form. -/
theorem rule_eq {r : Rule} (hv : r.toDraft.Valid) (ht : r.condition.Typed) {members : Members}
    (hd : (Json.object members).Distinct) (h : Draft.Rule.ofMembers members = .ok r.toDraft) :
    rule (.object members) = .object r.toMembers := by
  obtain ⟨name, _, hnext, hc, hr⟩ := parts_of_ofMembers h
  obtain ⟨condition, transition⟩ := r
  simp only [Rule.toDraft, Draft.Rule.mk.injEq, Option.some.injEq] at hr
  obtain ⟨rfl, rfl⟩ := hr
  obtain ⟨⟨_, valid, hs⟩, -⟩ := hv
  obtain rfl := Option.some.inj hs
  -- the condition is read from what is left without the name of the state
  have moved := perm_erase hnext
  have whole := distinct_perm moved hd
  obtain ⟨hfresh, hn⟩ := List.nodup_cons.mp whole.1
  obtain ⟨key, keys, order, same⟩ := says_of_ofMembers valid ht ⟨hn, whole.2.2⟩ hc
  have found (k : String) (hk : k ≠ "Next") :
      said ruleMember (Json.erase "Next" members) k = said ruleMember members k := by
    rw [said, said, get?_perm moved hd.1, get?, if_neg (Ne.symm hk)]
  have hkey : key ≠ "Next" := by
    rintro rfl
    have := order.subset (show "Next" ∈ ["Variable", "Next"] by simp)
    exact absurd this (by decide)
  have keys' : Document.Shape.KeysIn ["Variable", key, "Next"] members := by
    refine ⟨hd.1, fun k hm => ?_⟩
    have hm' := (moved.map Prod.fst).subset hm
    rcases List.mem_cons.mp hm' with rfl | hm'
    · simp
    · have := keys.known k hm'
      simp only [List.mem_cons, List.not_mem_nil, or_false] at this ⊢
      grind
  have sub : ["Variable", key, "Next"].Sublist ruleKeys := order.append (.refl ["Next"])
  have unknown : Comparator.ofKey? "Next" = none := by decide
  have next : said ruleMember members "Next" = some (.string name) := by
    simp [said, hnext, ruleMember, expected, unknown, isSilent]
  rw [rule, ruleMembers_eq_rewrite, object_rewrite keys' (by decide) sub]
  simp [Rule.toMembers, Rule.next?, Transition.next?, ← same, found, hkey, next]

end Workflow.NormalForm
