import Mathlib.Data.List.Induction
import PaqusNode.Base.Except
import PaqusNode.Paqus.Laws

/-!
# PaqusNode.Paqus.Chain

The chain laws put together: a chain built by `Chain::insert_block` is the
list of its blocks, each at the height of its position, each naming the one
before it.
-/

namespace PaqusNode

variable {P : Paqus}

/-- `chain` consists of the blocks `bs`, genesis first, tip last. -/
structure ChainOf (chain : Chain P.Block) (bs : List P.Block) : Prop where
  values : chain.blocks.valuesList = bs
  lookup : ∀ n : UInt64, chain.blocks[n]? = bs[n.toNat]?
  height : ∀ {i : Nat} {b}, bs[i]? = some b → (P.block.height b).toNat = i
  first : ∀ {b}, bs[0]? = some b → P.block.previousHash b = 0
  link : ∀ {i : Nat} {b p}, bs[i + 1]? = some b → bs[i]? = some p →
    P.block.previousHash b = P.block.hash p

/-- The first block of a chain names no parent. -/
theorem ChainOf.parentless {chain : Chain P.Block} {g : P.Block} {branch : List P.Block}
    (h : ChainOf chain (g :: branch)) : Parentless g :=
  ⟨UInt64.toNat_inj.mp ((h.height rfl).trans rfl), h.first rfl⟩

/-- The tip of a ledger is the last block of its chain. -/
structure TipOf (ledger : P.Ledger) (b : P.Block) : Prop where
  hash : P.ledger.tipHash ledger = some (P.block.hash b)
  height : P.ledger.tipHeight ledger = some (P.block.height b)

/-- A ledger has one tip. -/
theorem TipOf.unique {ledger : P.Ledger} {tip tip' : P.Block} (h : TipOf ledger tip)
    (h' : TipOf ledger tip') :
    P.block.hash tip = P.block.hash tip' ∧ P.block.height tip = P.block.height tip' :=
  ⟨Option.some.inj (h.hash.symm.trans h'.hash), Option.some.inj (h.height.symm.trans h'.height)⟩

/-- `chain` has the blocks `bs` at the heights 0, 1, …, linked or not. -/
structure ByHeight (chain : Chain P.Block) (bs : List P.Block) : Prop where
  values : chain.blocks.valuesList = bs
  lookup : ∀ n : UInt64, chain.blocks[n]? = bs[n.toNat]?
  height : ∀ {i : Nat} {b}, bs[i]? = some b → (P.block.height b).toNat = i

theorem ChainOf.byHeight {chain : Chain P.Block} {bs : List P.Block} (h : ChainOf chain bs) :
    ByHeight chain bs :=
  ⟨h.values, h.lookup, h.height⟩

/-- The position of a block is its height. -/
theorem ByHeight.getElem?_height {chain : Chain P.Block} {bs : List P.Block} {b : P.Block}
    (h : ByHeight chain bs) (hb : b ∈ bs) : bs[(P.block.height b).toNat]? = some b := by
  obtain ⟨i, hi⟩ := List.getElem?_of_mem hb
  rw [h.height hi, hi]

/-- A chain is determined by its blocks. -/
theorem ByHeight.chain_eq {chain chain' : Chain P.Block} {bs : List P.Block}
    (h : ByHeight chain bs) (h' : ByHeight chain' bs) : chain = chain' := by
  obtain ⟨blocks⟩ := chain
  obtain ⟨blocks'⟩ := chain'
  refine congrArg Chain.mk (Std.ExtTreeMap.ext_getElem? fun n => ?_)
  exact (h.lookup n).trans (h'.lookup n).symm

/-- No block of a chain sits at two heights. -/
theorem ChainOf.notMem_take {chain : Chain P.Block} {bs : List P.Block} (h : ChainOf chain bs)
    {k : Nat} {block : P.Block} (hget : bs[k]? = some block) : block ∉ bs.take k := by
  intro hmem
  obtain ⟨i, hi⟩ := List.getElem?_of_mem hmem
  have hik : i < k := by
    have := (List.getElem?_eq_some_iff.mp hi).1
    rw [List.length_take] at this
    omega
  rw [List.getElem?_take_of_lt hik] at hi
  have := (h.height hi).symm.trans (h.height hget)
  omega

/-- The only block of height 0 is the first. -/
theorem ChainOf.eq_first {chain : Chain P.Block} {bs : List P.Block} {b : P.Block}
    (h : ChainOf chain bs) (hb : b ∈ bs) (hzero : P.block.height b = 0) : bs[0]? = some b := by
  obtain ⟨i, hi⟩ := List.getElem?_of_mem hb
  have hheight := h.height hi
  rw [hzero] at hheight
  obtain rfl : 0 = i := hheight
  exact hi

theorem ChainOf.new : ChainOf (Chain.new P.Block) [] where
  values := by simp [Chain.new, BTreeMap.valuesList]
  lookup n := by simp [Chain.new]
  height h := by simp at h
  first h := by simp at h
  link h := by simp at h

/-- A block on top of a chain continues its list. -/
theorem ChainOf.concat (hchain : ChainLaws P) {chain chain' : Chain P.Block} {bs : List P.Block}
    {b : P.Block} (h : ChainOf chain bs) (hinsert : P.ledger.insertBlock chain b = .ok chain')
    (hheight : (P.block.height b).toNat = bs.length)
    (hfirst : bs = [] → P.block.previousHash b = 0)
    (hlink : ∀ p, bs.getLast? = some p → P.block.previousHash b = P.block.hash p) :
    ChainOf chain' (bs ++ [b]) where
  values := by
    rw [hchain.insert_blocks hinsert, BTreeMap.valuesList_insert_of_lt, h.values]
    intro k v hk
    rw [h.lookup] at hk
    have hlt : k.toNat < (P.block.height b).toNat := by
      rw [hheight]
      exact (List.getElem?_eq_some_iff.mp hk).1
    exact Std.compare_eq_lt.mpr hlt
  lookup n := by
    rw [hchain.insert_blocks hinsert, BTreeMap.getElem?_insert_eq]
    split
    · next heq =>
        subst heq
        rw [hheight, List.getElem?_concat_length]
    · next hne =>
        have hne' : n.toNat ≠ bs.length := by
          intro heq
          exact hne (UInt64.toNat_inj.mp (hheight.trans heq.symm))
        rw [h.lookup, List.getElem?_append]
        split
        · rfl
        · next hlt =>
            rw [List.getElem?_eq_none (by omega), List.getElem?_eq_none (by simp; omega)]
  height {i c} hi := by
    rw [List.getElem?_append] at hi
    split at hi
    · exact h.height hi
    · rw [List.getElem?_singleton] at hi
      split at hi
      · cases hi
        omega
      · cases hi
  first {c} hc := by
    cases bs with
    | nil =>
        cases hc
        exact hfirst rfl
    | cons g rest => exact h.first (by simpa using hc)
  link {i c p} hc hp := by
    by_cases hlt : i + 1 < bs.length
    · rw [List.getElem?_append_left hlt] at hc
      rw [List.getElem?_append_left (by omega)] at hp
      exact h.link hc hp
    · have hlen : i + 1 = bs.length := by
        have := (List.getElem?_eq_some_iff.mp hc).1
        simp only [List.length_append, List.length_singleton] at this
        omega
      rw [hlen, List.getElem?_concat_length] at hc
      cases hc
      rw [List.getElem?_append_left (by omega)] at hp
      exact hlink p (by rw [List.getLast?_eq_getElem?, ← hlen, Nat.add_sub_cancel, hp])

/-- **A chain that was built block by block is the list of those blocks.** -/
theorem chainOf_of_foldlM (hchain : ChainLaws P) {bs : List P.Block} {chain : Chain P.Block}
    (h : bs.foldlM P.ledger.insertBlock (Chain.new P.Block) = .ok chain) :
    ChainOf chain bs ∧ ∀ accounts b, bs.getLast? = some b → TipOf (P := P) ⟨accounts, chain⟩ b := by
  induction bs using List.reverseRecOn generalizing chain with
  | nil =>
      cases h
      exact ⟨.new, fun _ _ hlast => by simp at hlast⟩
  | append_singleton bs b ih =>
      obtain ⟨before, hbefore, hinsert⟩ := foldlM_concat_eq_ok.mp h
      obtain ⟨hof, htip⟩ := ih hbefore
      have htip' : ∀ accounts c, (bs ++ [b]).getLast? = some c →
          TipOf (P := P) ⟨accounts, chain⟩ c := by
        intro accounts c hc
        rw [List.getLast?_concat] at hc
        cases hc
        obtain ⟨hhash, hheight⟩ := hchain.insert_tip accounts hinsert
        exact ⟨hhash, hheight⟩
      refine ⟨?_, htip'⟩
      rcases List.eq_nil_or_concat bs with rfl | ⟨rest, last, rfl⟩
      · cases hbefore
        obtain ⟨hheight, hprev⟩ := hchain.insert_first hinsert
        exact hof.concat hchain hinsert (by rw [hheight]; rfl) (fun _ => hprev)
          (fun p hp => by simp at hp)
      · rw [List.concat_eq_append] at hof htip ⊢
        have hlast := htip ∅ last List.getLast?_concat
        obtain ⟨hprev, hnext⟩ := hchain.insert_next hinsert hlast.hash hlast.height
        refine hof.concat hchain hinsert ?_ (fun hnil => by simp at hnil) ?_
        · rw [hnext, hof.height List.getElem?_concat_length]
          simp
        · intro p hp
          rw [List.getLast?_concat] at hp
          cases hp
          exact hprev

/-- `Chain::insert_block` accepts each of the blocks `bs` on top of those
before it. -/
def Accepted (bs : List P.Block) : Prop :=
  ∀ (i : Nat) (b : P.Block) (before : Chain P.Block), bs[i]? = some b →
    ChainOf before (bs.take i) → ∃ after, P.ledger.insertBlock before b = .ok after

/-- A chain of accepted blocks is the one `Chain::insert_block` builds from
them. -/
theorem ChainOf.foldlM (hchain : ChainLaws P) {chain : Chain P.Block} {bs : List P.Block}
    (h : ChainOf chain bs) (haccepted : Accepted bs) :
    bs.foldlM P.ledger.insertBlock (Chain.new P.Block) = .ok chain := by
  have hbuilt : ∀ k ≤ bs.length,
      ∃ built, (bs.take k).foldlM P.ledger.insertBlock (Chain.new P.Block) = .ok built := by
    intro k
    induction k with
    | zero => exact fun _ => ⟨_, rfl⟩
    | succ k ih =>
        intro hk
        obtain ⟨before, hbefore⟩ := ih (by omega)
        have hb := List.getElem?_eq_getElem (show k < bs.length by omega)
        obtain ⟨after, hafter⟩ :=
          haccepted k _ before hb (chainOf_of_foldlM hchain hbefore).1
        rw [List.take_add_one, hb, Option.toList_some]
        exact ⟨after, foldlM_concat_eq_ok.mpr ⟨before, hbefore, hafter⟩⟩
  obtain ⟨built, hfold⟩ := hbuilt bs.length (Nat.le_refl _)
  rw [List.take_length] at hfold
  rw [hfold, (chainOf_of_foldlM hchain hfold).1.byHeight.chain_eq h.byHeight]

end PaqusNode
