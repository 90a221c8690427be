import Mathlib.Algebra.BigOperators.Group.Finset.Basic
import Mathlib.Algebra.GroupWithZero.Nat
import Mathlib.Algebra.Order.BigOperators.Group.List
import Mathlib.Algebra.Order.Group.Nat
import Mathlib.Data.List.Nodup
import Mathlib.Data.List.Perm.Subperm
import Std.Data.ExtTreeMap
import Std.Data.ExtTreeSet

/-!
# PaqusNode.Base.BTreeMap

Ordered maps and sets, as `std::collections::BTreeMap` and `BTreeSet`: the
extensional tree maps of the standard library, with the lookup lemmas
restated over key equality instead of `compare`, and the list of values in
key order.
-/

namespace PaqusNode

open Std

/-- `BTreeMap<K, V>`. -/
abbrev BTreeMap (K V : Type) [Ord K] : Type := ExtTreeMap K V compare

/-- `BTreeSet<K>`. -/
abbrev BTreeSet (K : Type) [Ord K] : Type := ExtTreeSet K compare

namespace BTreeMap

variable {K V W : Type} [Ord K] [TransOrd K] [LawfulEqOrd K] [DecidableEq K]

/-- `values()`: the values in key order. -/
def valuesList (m : BTreeMap K V) : List V := m.toList.map Prod.snd

theorem getElem?_insert_eq (m : BTreeMap K V) (k a : K) (v : V) :
    (m.insert k v)[a]? = if k = a then some v else m[a]? := by
  rw [ExtTreeMap.getElem?_insert]
  simp only [Std.compare_eq_iff_eq]

theorem getElem?_erase_eq (m : BTreeMap K V) (k a : K) :
    (m.erase k)[a]? = if k = a then none else m[a]? := by
  rw [ExtTreeMap.getElem?_erase]
  simp only [Std.compare_eq_iff_eq]

omit [DecidableEq K] in
theorem getElem?_filter_eq (m : BTreeMap K V) (p : K → V → Bool) (k : K) :
    (m.filter p)[k]? = (m[k]?).filter (p k) := by
  rw [ExtTreeMap.getElem?_filter]
  simp [Option.pfilter_eq_filter]

theorem getElem?_alter_eq (m : BTreeMap K V) (k a : K) (f : Option V → Option V) :
    (m.alter k f)[a]? = if k = a then f m[k]? else m[a]? := by
  rw [ExtTreeMap.getElem?_alter]
  simp only [Std.compare_eq_iff_eq]

theorem isSome_alter_iff (m : BTreeMap K V) (k a : K) {f : Option V → Option V}
    (hf : ∀ v, (f v).isSome) : ((m.alter k f)[a]?).isSome ↔ a = k ∨ (m[a]?).isSome := by
  rw [getElem?_alter_eq]
  split
  · next heq => simp [hf, heq]
  · next hne => simp [Ne.symm hne]

omit [DecidableEq K] in
/-- The values are those found under some key. -/
theorem mem_valuesList {m : BTreeMap K V} {v : V} :
    v ∈ m.valuesList ↔ ∃ k : K, m[k]? = some v := by
  unfold valuesList
  rw [List.mem_map]
  constructor
  · rintro ⟨⟨k, w⟩, hmem, rfl⟩
    exact ⟨k, ExtTreeMap.mem_toList_iff_getElem?_eq_some.mp hmem⟩
  · rintro ⟨k, hk⟩
    exact ⟨(k, v), ExtTreeMap.mem_toList_iff_getElem?_eq_some.mpr hk, rfl⟩

omit [LawfulEqOrd K] [DecidableEq K] in
theorem length_valuesList (m : BTreeMap K V) : m.valuesList.length = m.size := by
  simp [valuesList]

omit [LawfulEqOrd K] [DecidableEq K] in
theorem valuesList_empty : (∅ : BTreeMap K V).valuesList = [] :=
  List.eq_nil_of_length_eq_zero (by rw [length_valuesList]; exact ExtTreeMap.size_empty)

omit [LawfulEqOrd K] [DecidableEq K] in
theorem contains_eq_isSome (m : BTreeMap K V) (k : K) : m.contains k = (m[k]?).isSome :=
  ExtTreeMap.contains_eq_isSome_getElem?

omit [DecidableEq K] in
/-- A map with no entry is the empty map. -/
theorem eq_empty_of_getElem?_eq_none {m : BTreeMap K V} (h : ∀ k : K, m[k]? = none) : m = ∅ :=
  ExtTreeMap.ext_getElem? fun k => by rw [h k, ExtTreeMap.getElem?_empty]

omit [DecidableEq K] in
/-- Removing a present key makes the map smaller by one. -/
theorem size_erase_add_one {m : BTreeMap K V} {k : K} {v : V} (h : m[k]? = some v) :
    (m.erase k).size + 1 = m.size := by
  have hmem : v ∈ m.valuesList := mem_valuesList.mpr ⟨k, h⟩
  have hpos : 0 < m.size := by
    rw [← length_valuesList]
    exact List.length_pos_of_mem hmem
  have hcontains : m.contains k = true := by rw [contains_eq_isSome, h]; rfl
  rw [ExtTreeMap.size_erase, if_pos hcontains]
  omega

/-! ## Maps as sorted lists -/

omit [DecidableEq K] in
/-- The sorted list of a map's entries is its `toList`. -/
theorem toList_eq_of_sorted {m : BTreeMap K V} {l : List (K × V)}
    (hsorted : l.Pairwise fun a b => compare a.1 b.1 = .lt)
    (hmem : ∀ k v, (k, v) ∈ l ↔ m[k]? = some v) : m.toList = l := by
  have hirrefl : ∀ a : K × V, ¬ compare a.1 a.1 = .lt := by
    intro a h
    rw [Std.compare_eq_iff_eq.mpr rfl] at h
    cases h
  have hnodup : ∀ {l : List (K × V)}, (l.Pairwise fun a b => compare a.1 b.1 = .lt) → l.Nodup := by
    intro l h
    refine h.imp ?_
    rintro a b hab rfl
    exact hirrefl a hab
  have hperm : m.toList.Perm l :=
    (List.perm_ext_iff_of_nodup (hnodup ExtTreeMap.ordered_keys_toList) (hnodup hsorted)).mpr
      fun ⟨k, v⟩ => by rw [hmem, ExtTreeMap.mem_toList_iff_getElem?_eq_some]
  refine hperm.eq_of_pairwise ?_ ExtTreeMap.ordered_keys_toList hsorted
  intro a b _ _ hab hba
  exact absurd (TransCmp.lt_trans hab hba) (hirrefl a)

/-- A key above all others goes to the end of the values. -/
theorem valuesList_insert_of_lt {m : BTreeMap K V} {k : K} {v : V}
    (h : ∀ (k' : K) v', m[k']? = some v' → compare k' k = .lt) :
    valuesList (m.insert k v) = m.valuesList ++ [v] := by
  have hlist : (m.insert k v).toList = m.toList ++ [(k, v)] := by
    apply toList_eq_of_sorted
    · rw [List.pairwise_append]
      refine ⟨ExtTreeMap.ordered_keys_toList, List.pairwise_singleton _ _, ?_⟩
      rintro ⟨k', v'⟩ hmem b hb
      rw [List.mem_singleton.mp hb]
      exact h k' v' (ExtTreeMap.mem_toList_iff_getElem?_eq_some.mp hmem)
    · intro k' v'
      rw [List.mem_append, List.mem_singleton, ExtTreeMap.mem_toList_iff_getElem?_eq_some,
        getElem?_insert_eq]
      split
      · next heq =>
          subst heq
          constructor
          · rintro (hold | hnew)
            · have hlt := h k v' hold
              rw [Std.compare_eq_iff_eq.mpr rfl] at hlt
              cases hlt
            · cases hnew
              rfl
          · intro hv
            cases hv
            exact .inr rfl
      · next hne =>
          constructor
          · rintro (hold | hnew)
            · exact hold
            · cases hnew
              exact absurd rfl hne
          · exact .inl
  simp [valuesList, hlist]

/-! ## Tables filled row by row -/

/-- A key no row has keeps its entry. -/
theorem getElem?_foldl_insert_of_ne {α : Type} (key : α → K) (val : α → V) {rows : List α}
    {k : K} (m : BTreeMap K V) (h : ∀ x ∈ rows, key x ≠ k) :
    (rows.foldl (fun m x => m.insert (key x) (val x)) m)[k]? = m[k]? := by
  induction rows generalizing m with
  | nil => rfl
  | cons x rows ih =>
      rw [List.foldl_cons, ih _ fun y hy => h y (List.mem_cons_of_mem x hy), getElem?_insert_eq,
        if_neg (h x List.mem_cons_self)]

/-- When rows with one key have one value, each row's entry is there at the
end. -/
theorem getElem?_foldl_insert_of_mem {α : Type} (key : α → K) (val : α → V) {rows : List α} {x : α}
    (m : BTreeMap K V) (hfun : ∀ y ∈ rows, key y = key x → val y = val x) (hx : x ∈ rows) :
    (rows.foldl (fun m x => m.insert (key x) (val x)) m)[key x]? = some (val x) := by
  induction rows generalizing m x with
  | nil => cases hx
  | cons y rows ih =>
      rw [List.foldl_cons]
      have hrest : ∀ z ∈ rows, key z = key x → val z = val x :=
        fun z hz => hfun z (List.mem_cons_of_mem y hz)
      by_cases hlater : ∃ z ∈ rows, key z = key x
      · obtain ⟨z, hz, hkey⟩ := hlater
        have hval := hrest z hz hkey
        rw [← hkey, ← hval]
        exact ih _ (fun w hw hwk => (hrest w hw (hwk.trans hkey)).trans hval.symm) hz
      · have hy : y = x := by
          rcases List.mem_cons.mp hx with rfl | hx
          · rfl
          · exact absurd ⟨x, hx, rfl⟩ hlater
        subst hy
        rw [getElem?_foldl_insert_of_ne key val _ fun z hz hzk => hlater ⟨z, hz, hzk⟩,
          getElem?_insert_eq, if_pos rfl]

omit [DecidableEq K] in
theorem nodup_keys (m : BTreeMap K V) : m.keys.Nodup := by
  refine ExtTreeMap.distinct_keys.imp ?_
  rintro a b hne rfl
  exact hne (Std.compare_eq_iff_eq.mpr rfl)

omit [DecidableEq K] in
theorem nodup_toList (m : BTreeMap K V) : m.toList.Nodup := by
  refine ExtTreeMap.distinct_keys_toList.imp ?_
  rintro a b hne rfl
  exact hne (Std.compare_eq_iff_eq.mpr rfl)

omit [DecidableEq K] in
theorem mem_keys_iff {m : BTreeMap K V} {k : K} : k ∈ m.keys ↔ (m[k]?).isSome := by
  rw [ExtTreeMap.mem_keys, ← contains_eq_isSome]
  rfl

omit [DecidableEq K] in
/-- The keys are a sorted list, so it does not matter what they map to. -/
theorem keys_eq_of_isSome {m : BTreeMap K V} {m' : BTreeMap K W}
    (h : ∀ k : K, (m[k]?).isSome ↔ (m'[k]?).isSome) : m.keys = m'.keys := by
  have hperm : m.keys.Perm m'.keys :=
    (List.perm_ext_iff_of_nodup (nodup_keys m) (nodup_keys m')).mpr fun k => by
      rw [mem_keys_iff, mem_keys_iff, h]
  refine hperm.eq_of_pairwise ?_ ExtTreeMap.ordered_keys ExtTreeMap.ordered_keys
  intro a b _ _ hab hba
  have hself := TransCmp.lt_trans hab hba
  rw [Std.compare_eq_iff_eq.mpr rfl] at hself
  cases hself

omit [DecidableEq K] in
/-- A map has no more entries than one that has all its keys. -/
theorem size_le_of_isSome {m : BTreeMap K V} {m' : BTreeMap K W}
    (h : ∀ k : K, (m[k]?).isSome → (m'[k]?).isSome) : m.size ≤ m'.size := by
  have hsub : m.keys ⊆ m'.keys := fun k hk => mem_keys_iff.mpr (h k (mem_keys_iff.mp hk))
  have hlen := ((nodup_keys m).subperm hsub).length_le
  simpa using hlen

/-- What is there at the end is a row, or was there before. -/
theorem exists_of_getElem?_foldl_insert {α : Type} (key : α → K) (val : α → V) {rows : List α}
    {m : BTreeMap K V} {k : K} {v : V}
    (h : (rows.foldl (fun m x => m.insert (key x) (val x)) m)[k]? = some v) :
    (∃ x ∈ rows, key x = k ∧ val x = v) ∨ m[k]? = some v := by
  induction rows generalizing m with
  | nil => exact .inr h
  | cons x rows ih =>
      rcases ih h with ⟨y, hy, hrow⟩ | h
      · exact .inl ⟨y, List.mem_cons_of_mem x hy, hrow⟩
      · rw [getElem?_insert_eq] at h
        split at h
        · next heq => exact .inl ⟨x, List.mem_cons_self, heq, Option.some.inj h⟩
        · exact .inr h

/-- The key of each row is there at the end. -/
theorem isSome_getElem?_foldl_insert {α : Type} (key : α → K) (val : α → V) {rows : List α}
    {m : BTreeMap K V} {x : α} (hx : x ∈ rows) :
    ((rows.foldl (fun m x => m.insert (key x) (val x)) m)[key x]?).isSome := by
  have hkept : ∀ (rows : List α) (m : BTreeMap K V), (m[key x]?).isSome →
      ((rows.foldl (fun m x => m.insert (key x) (val x)) m)[key x]?).isSome := by
    intro rows
    induction rows with
    | nil => exact fun m h => h
    | cons y rows ih =>
        intro m h
        refine ih _ ?_
        rw [getElem?_insert_eq]
        split
        · rfl
        · exact h
  induction rows generalizing m with
  | nil => cases hx
  | cons y rows ih =>
      rcases List.mem_cons.mp hx with rfl | hx
      · refine hkept rows _ ?_
        rw [getElem?_insert_eq, if_pos rfl]
        rfl
      · exact ih hx

/-- Rows with distinct keys, filed one by one, are the entries of the map. -/
theorem toList_foldl_insert_perm {α : Type} (key : α → K) (val : α → V) {rows : List α}
    (hnodup : (rows.map key).Nodup) :
    (rows.foldl (fun m x => m.insert (key x) (val x)) (∅ : BTreeMap K V)).toList.Perm
      (rows.map fun x => (key x, val x)) := by
  have hrows : (rows.map fun x => (key x, val x)).Nodup := by
    refine List.Nodup.of_map Prod.fst ?_
    rwa [List.map_map]
  refine (List.perm_ext_iff_of_nodup (nodup_toList _) hrows).mpr ?_
  rintro ⟨k, v⟩
  rw [ExtTreeMap.mem_toList_iff_getElem?_eq_some, List.mem_map]
  constructor
  · intro h
    rcases exists_of_getElem?_foldl_insert key val h with ⟨x, hx, rfl, rfl⟩ | h
    · exact ⟨x, hx, rfl⟩
    · simp at h
  · rintro ⟨x, hx, heq⟩
    cases heq
    refine getElem?_foldl_insert_of_mem key val _ ?_ hx
    intro y hy hkey
    rw [List.inj_on_of_nodup_map hnodup hy hx hkey]

/-- A map whose values know their keys is its values, filed one by one. -/
theorem foldl_insert_valuesList {m : BTreeMap K V} {key : V → K}
    (hkey : ∀ (k : K) v, m[k]? = some v → key v = k) :
    m.valuesList.foldl (fun m v => m.insert (key v) v) (∅ : BTreeMap K V) = m := by
  refine ExtTreeMap.ext_getElem? fun k => ?_
  cases hk : m[k]? with
  | none =>
      rw [getElem?_foldl_insert_of_ne key fun v => v, ExtTreeMap.getElem?_empty]
      intro v hv heq
      obtain ⟨k', hk'⟩ := mem_valuesList.mp hv
      rw [← heq, hkey k' v hk', hk'] at hk
      cases hk
  | some v =>
      have hfun : ∀ w ∈ m.valuesList, key w = key v → w = v := by
        intro w hw heq
        obtain ⟨k', hk'⟩ := mem_valuesList.mp hw
        rw [hkey k' w hk', hkey k v hk] at heq
        rw [heq, hk] at hk'
        exact (Option.some.inj hk').symm
      have hlast := getElem?_foldl_insert_of_mem key (fun v => v) (∅ : BTreeMap K V) hfun
        (mem_valuesList.mpr ⟨k, hk⟩)
      rwa [hkey k v hk] at hlast

/-- Erasing keys one after the other. -/
theorem getElem?_foldl_erase {A : Type} (f : A → K) (as : List A) (m : BTreeMap K V) (k : K) :
    (as.foldl (fun m a => m.erase (f a)) m)[k]? =
      if ∃ a ∈ as, f a = k then none else m[k]? := by
  induction as generalizing m with
  | nil => simp
  | cons a rest ih =>
      rw [List.foldl_cons, ih, getElem?_erase_eq]
      by_cases hrest : ∃ b ∈ rest, f b = k
      · simp [hrest]
      · by_cases ha : f a = k
        · simp [ha]
        · simp [hrest, ha]

omit [DecidableEq K] in
/-- A map whose entries are all in `m`, but for some `extra` ones, sums up to
no more than the two together. -/
theorem sum_valuesList_le {m m' : BTreeMap K V} (f : V → Nat) (extra : List (K × V))
    (h : ∀ k v, m'[k]? = some v → (k, v) ∈ extra ∨ m[k]? = some v) :
    (m'.valuesList.map f).sum ≤ (extra.map (f ∘ Prod.snd)).sum + (m.valuesList.map f).sum := by
  have hsub : m'.toList.Subperm (extra ++ m.toList) := by
    refine List.subperm_of_subset (nodup_toList m') ?_
    rintro ⟨k, v⟩ hmem
    rw [List.mem_append, ExtTreeMap.mem_toList_iff_getElem?_eq_some]
    exact h k v (ExtTreeMap.mem_toList_iff_getElem?_eq_some.mp hmem)
  obtain ⟨l, hperm, hsublist⟩ := hsub
  have hsum := (hsublist.map (f ∘ Prod.snd)).sum_le_sum (fun _ _ => Nat.zero_le _)
  rw [(hperm.map (f ∘ Prod.snd)).sum_nat, List.map_append, List.sum_append] at hsum
  simpa [valuesList] using hsum

/-- A new entry joins the others. -/
theorem toList_insert_perm {m : BTreeMap K V} {k : K} (v : V) (h : m[k]? = none) :
    (m.insert k v).toList.Perm ((k, v) :: m.toList) := by
  have hnew : (k, v) ∉ m.toList := by
    rw [ExtTreeMap.mem_toList_iff_getElem?_eq_some, h]
    simp
  refine (List.perm_ext_iff_of_nodup (nodup_toList _)
    (List.nodup_cons.mpr ⟨hnew, nodup_toList m⟩)).mpr ?_
  rintro ⟨k', v'⟩
  rw [List.mem_cons, ExtTreeMap.mem_toList_iff_getElem?_eq_some,
    ExtTreeMap.mem_toList_iff_getElem?_eq_some, getElem?_insert_eq]
  split
  · next heq =>
      subst heq
      simp [h, eq_comm]
  · next hne => simp [Ne.symm hne]

theorem sum_valuesList_insert {m : BTreeMap K V} {k : K} (v : V) (h : m[k]? = none)
    (f : V → Nat) :
    ((valuesList (m.insert k v)).map f).sum = f v + (m.valuesList.map f).sum := by
  have hperm := ((toList_insert_perm v h).map (f ∘ Prod.snd)).sum_nat
  simpa [valuesList] using hperm

/-- A sum over the values, with one of them taken out. -/
theorem sum_valuesList_erase {m : BTreeMap K V} {k : K} {v : V} (h : m[k]? = some v)
    (f : V → Nat) :
    (m.valuesList.map f).sum = f v + ((valuesList (m.erase k)).map f).sum := by
  have hback : (m.erase k).insert k v = m := by
    refine ExtTreeMap.ext_getElem? fun a => ?_
    rw [getElem?_insert_eq, getElem?_erase_eq]
    split
    · next heq => rw [← heq, h]
    · rfl
  rw [← sum_valuesList_insert v (by rw [getElem?_erase_eq, if_pos rfl]) f, hback]

/-- What a map holds under some keys is part of what it holds. -/
theorem sum_getElem?_le (m : BTreeMap K V) (f : V → Nat) (keys : Finset K) :
    ∑ k ∈ keys, (m[k]?).elim 0 f ≤ (m.valuesList.map f).sum := by
  induction keys using Finset.induction_on generalizing m with
  | empty => exact Nat.zero_le _
  | insert k keys hk ih =>
      rw [Finset.sum_insert hk]
      cases h : m[k]? with
      | none =>
          rw [Option.elim_none, Nat.zero_add]
          exact ih m
      | some v =>
          have hsame : ∑ a ∈ keys, (m[a]?).elim 0 f = ∑ a ∈ keys, ((m.erase k)[a]?).elim 0 f := by
            refine Finset.sum_congr rfl fun a ha => ?_
            rw [getElem?_erase_eq, if_neg fun heq : k = a => hk (heq ▸ ha)]
          have herase := sum_valuesList_erase h f
          have hrest := ih (m.erase k)
          rw [Option.elim_some, hsame]
          omega

/-- Another value under the same key. -/
theorem sum_valuesList_update {m : BTreeMap K V} {k : K} {v : V} (h : m[k]? = some v) (w : V)
    (f : V → Nat) :
    ((valuesList (m.insert k w)).map f).sum + f v = (m.valuesList.map f).sum + f w := by
  have hself : (m.erase k)[k]? = none := by rw [getElem?_erase_eq, if_pos rfl]
  have hsame : (m.erase k).insert k w = m.insert k w := by
    refine ExtTreeMap.ext_getElem? fun a => ?_
    rw [getElem?_insert_eq, getElem?_insert_eq, getElem?_erase_eq]
    split <;> rfl
  have hinsert := sum_valuesList_insert w hself f
  rw [hsame] at hinsert
  rw [hinsert, sum_valuesList_erase h f]
  omega

/-! ## Grouping -/

/-- The values of a list, in one list for each key. -/
def group {A : Type} (key : A → K) (values : List A) : BTreeMap K (List A) :=
  values.foldl (fun groups a => groups.alter (key a) fun queue => some (queue.getD [] ++ [a])) ∅

/-- Grouping appends to the group of each key, in the order of the values. -/
theorem getElem?_foldl_group {A : Type} (key : A → K) (values : List A)
    (m : BTreeMap K (List A)) (k : K) :
    (values.foldl (fun groups a =>
        groups.alter (key a) fun queue => some (queue.getD [] ++ [a])) m)[k]? =
      if values.filter (fun a => key a = k) = [] then m[k]?
      else some ((m[k]?).getD [] ++ values.filter fun a => key a = k) := by
  induction values generalizing m with
  | nil => simp
  | cons a values ih =>
      rw [List.foldl_cons, ih, getElem?_alter_eq]
      by_cases hk : key a = k
      · subst hk
        by_cases hrest : values.filter (fun b => key b = key a) = []
        · simp [hrest]
        · simp [hrest]
      · simp [hk]

theorem getElem?_group {A : Type} (key : A → K) (values : List A) (k : K) :
    (group key values)[k]? =
      if values.filter (fun a => key a = k) = [] then none
      else some (values.filter fun a => key a = k) := by
  rw [group, getElem?_foldl_group]
  simp

/-- The groups hold all values. -/
theorem sum_length_group {A : Type} (key : A → K) (values : List A) :
    ((group key values).valuesList.map List.length).sum = values.length := by
  have hadd : ∀ (m : BTreeMap K (List A)) (a : A),
      ((valuesList (m.alter (key a) fun queue => some (queue.getD [] ++ [a]))).map
        List.length).sum = (m.valuesList.map List.length).sum + 1 := by
    intro m a
    have hinsert : (m.alter (key a) fun queue => some (queue.getD [] ++ [a])) =
        m.insert (key a) ((m[key a]?).getD [] ++ [a]) := by
      refine ExtTreeMap.ext_getElem? fun k => ?_
      rw [getElem?_alter_eq, getElem?_insert_eq]
    rw [hinsert]
    cases hqueue : m[key a]? with
    | none =>
        rw [sum_valuesList_insert _ hqueue]
        simp [Nat.add_comm]
    | some queue =>
        have hupdate := sum_valuesList_update hqueue (queue ++ [a]) List.length
        rw [List.length_append, List.length_singleton] at hupdate
        rw [Option.getD_some]
        omega
  have hfold : ∀ (m : BTreeMap K (List A)), ((valuesList (values.foldl (fun groups a =>
        groups.alter (key a) fun queue => some (queue.getD [] ++ [a])) m)).map List.length).sum =
      (m.valuesList.map List.length).sum + values.length := by
    induction values with
    | nil => simp
    | cons a values ih =>
        intro m
        rw [List.foldl_cons, ih, hadd, List.length_cons]
        omega
  rw [group, hfold ∅, valuesList_empty]
  exact Nat.zero_add _

omit [LawfulEqOrd K] [DecidableEq K] in
/-- What a filter keeps and what it drops make up the map. -/
theorem sum_valuesList_filter_add (m : BTreeMap K V) (p : K → V → Bool) (f : V → Nat) :
    ((valuesList (m.filter p)).map f).sum +
        ((valuesList (m.filter fun k v => !p k v)).map f).sum = (m.valuesList.map f).sum := by
  have hperm := List.filter_append_perm (fun e : K × V => p e.1 e.2) m.toList
  have hsum := (hperm.map (f ∘ Prod.snd)).sum_nat
  rw [List.map_append, List.sum_append] at hsum
  simpa [valuesList, ExtTreeMap.toList_filter] using hsum

end BTreeMap

end PaqusNode
