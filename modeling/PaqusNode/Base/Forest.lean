/-!
# PaqusNode.Base.Forest

Items known by a key, each naming the key of its parent or none: a forest
that grows at its leaves.  A *branch* is the list of items from just above a
root down to a tip; a root is an item without a parent, but not every such
item need be one.  Branches are unique, and survive every later growth;
so whatever is computed from a branch is settled the moment its tip is
known.
-/

namespace PaqusNode

/-- The known items, by key, and where each one hangs. -/
structure Forest (H B : Type) where
  item : H → Option B
  parent : B → Option H
  /-- The items a branch may start with. -/
  root : B → Prop
  root_parent : ∀ {b}, root b → parent b = none

namespace Forest

variable {H B : Type} {F : Forest H B} {r t : H}

/-! ## Branches -/

/-- `F.Branch r t bs`: following parents from `t` leads to the root `r`, and
`bs` are the items met on the way, the root's excluded, oldest first. -/
inductive Branch (F : Forest H B) (r : H) : H → List B → Prop
  | root {b : B} (hitem : F.item r = some b) (hroot : F.root b) : Branch F r r []
  | step {t p : H} {b : B} {bs : List B} (hbranch : Branch F r p bs) (hitem : F.item t = some b)
      (hparent : F.parent b = some p) : Branch F r t (bs ++ [b])

/-- The end of a branch is known. -/
theorem Branch.tip_known {bs : List B} (h : F.Branch r t bs) : ∃ b, F.item t = some b := by
  cases h with
  | root hitem _ => exact ⟨_, hitem⟩
  | step _ hitem _ => exact ⟨_, hitem⟩

/-- The start of a branch is a root. -/
theorem Branch.root_item {bs : List B} (h : F.Branch r t bs) :
    ∃ b, F.item r = some b ∧ F.root b := by
  induction h with
  | root hitem hroot => exact ⟨_, hitem, hroot⟩
  | step _ _ _ ih => exact ih

/-- **A tip has one branch.** -/
theorem Branch.unique {r' : H} {bs bs' : List B} (h : F.Branch r t bs) (h' : F.Branch r' t bs') :
    r = r' ∧ bs = bs' := by
  induction h generalizing bs' with
  | root hitem hroot =>
      cases h' with
      | root _ _ => exact ⟨rfl, rfl⟩
      | step _ hitem' hparent' =>
          rw [hitem] at hitem'
          cases hitem'
          rw [F.root_parent hroot] at hparent'
          cases hparent'
  | step _ hitem hparent ih =>
      cases h' with
      | root hitem' hroot' =>
          rw [hitem] at hitem'
          cases hitem'
          rw [F.root_parent hroot'] at hparent
          cases hparent
      | step hbranch' hitem' hparent' =>
          rw [hitem] at hitem'
          cases hitem'
          rw [hparent] at hparent'
          cases hparent'
          obtain ⟨hr, hbs⟩ := ih hbranch'
          exact ⟨hr, by rw [hbs]⟩

/-- Every item of a branch is a known one with a parent. -/
theorem Branch.mem_known {bs : List B} {b : B} (h : F.Branch r t bs) (hb : b ∈ bs) :
    ∃ k p, F.item k = some b ∧ F.parent b = some p := by
  induction h with
  | root _ _ => cases hb
  | step _ hitem hparent ih =>
      rcases List.mem_append.mp hb with hb | hb
      · exact ih hb
      · rw [List.mem_singleton] at hb
        subst hb
        exact ⟨_, _, hitem, hparent⟩

/-! ## Growth -/

/-- `F'` knows everything `F` knows. -/
structure Extends (F F' : Forest H B) : Prop where
  item : ∀ {k b}, F.item k = some b → F'.item k = some b
  parent : F'.parent = F.parent
  root : F'.root = F.root

theorem Extends.refl (F : Forest H B) : Extends F F := ⟨id, rfl, rfl⟩

theorem Extends.trans {F₁ F₂ F₃ : Forest H B} (h : Extends F₁ F₂) (h' : Extends F₂ F₃) :
    Extends F₁ F₃ :=
  ⟨fun hitem => h'.item (h.item hitem), h'.parent.trans h.parent, h'.root.trans h.root⟩

/-- What is unknown after growth was unknown before. -/
theorem Extends.unknown {F' : Forest H B} {k : H} (h : Extends F F') (hnone : F'.item k = none) :
    F.item k = none := by
  cases hitem : F.item k with
  | none => rfl
  | some b =>
      rw [h.item hitem] at hnone
      cases hnone

/-- **Branches survive growth.** -/
theorem Branch.mono {F' : Forest H B} {bs : List B} (h : F.Branch r t bs) (hext : Extends F F') :
    F'.Branch r t bs := by
  induction h with
  | root hitem hroot => exact .root (hext.item hitem) (hext.root ▸ hroot)
  | step _ hitem hparent ih => exact .step ih (hext.item hitem) (hext.parent ▸ hparent)

/-- Learning one item under a key. -/
def insert [DecidableEq H] (F : Forest H B) (k : H) (b : B) : Forest H B :=
  { F with item := fun k' => if k = k' then some b else F.item k' }

theorem insert_item_self [DecidableEq H] (k : H) (b : B) : (F.insert k b).item k = some b := by
  simp [insert]

theorem insert_item_of_ne [DecidableEq H] {k k' : H} {b : B} (h : k ≠ k') :
    (F.insert k b).item k' = F.item k' := by
  simp [insert, h]

/-- Learning an item under a new key is growth. -/
theorem extends_insert [DecidableEq H] {k : H} {b : B} (hfresh : F.item k = none) :
    Extends F (F.insert k b) where
  item := by
    intro k' b' hk'
    have hne : k ≠ k' := by
      rintro rfl
      rw [hfresh] at hk'
      cases hk'
    rw [insert_item_of_ne hne, hk']
  parent := rfl
  root := rfl

/-! ## Trees -/

/-- A forest with one root: every known item is on a branch from `r`. -/
structure Rooted (F : Forest H B) (r : H) : Prop where
  root : ∃ b, F.item r = some b ∧ F.root b
  branch : ∀ {k b}, F.item k = some b → ∃ bs, F.Branch r k bs

/-- A tree has no second root. -/
theorem Rooted.eq_root {k : H} {b : B} (h : F.Rooted r) (hitem : F.item k = some b)
    (hparent : F.parent b = none) : k = r := by
  obtain ⟨bs, hbs⟩ := h.branch hitem
  cases hbs with
  | root _ _ => rfl
  | step _ hitem' hparent' =>
      rw [hitem] at hitem'
      cases hitem'
      rw [hparent] at hparent'
      cases hparent'

/-- An item with a parent hangs on the branch of its parent. -/
theorem Rooted.branch_parent {k p : H} {b : B} (h : F.Rooted r) (hitem : F.item k = some b)
    (hparent : F.parent b = some p) : ∃ bs, F.Branch r p bs := by
  obtain ⟨bs, hbs⟩ := h.branch hitem
  cases hbs with
  | root hitem' hroot =>
      rw [hitem] at hitem'
      cases hitem'
      rw [F.root_parent hroot] at hparent
      cases hparent
  | step hbranch hitem' hparent' =>
      rw [hitem] at hitem'
      cases hitem'
      rw [hparent] at hparent'
      cases hparent'
      exact ⟨_, hbranch⟩

/-- What holds of the root and passes from each parent to its children holds
of a whole tree. -/
theorem Rooted.induction (h : F.Rooted r) (p : H → Prop) (hroot : p r)
    (hstep : ∀ {k q b}, F.item k = some b → F.parent b = some q → p q → p k) {k : H} {b : B}
    (hitem : F.item k = some b) : p k := by
  obtain ⟨bs, hbs⟩ := h.branch hitem
  clear hitem
  induction hbs with
  | root _ _ => exact hroot
  | step _ hitem hparent ih => exact hstep hitem hparent ih

/-- **A new leaf keeps a tree a tree.** -/
theorem Rooted.insert [DecidableEq H] {k p : H} {b b' : B} (h : F.Rooted r)
    (hfresh : F.item k = none) (hparent : F.parent b = some p) (hknown : F.item p = some b') :
    (F.insert k b).Rooted r := by
  have hext : Extends F (F.insert k b) := extends_insert hfresh
  refine ⟨?_, ?_⟩
  · obtain ⟨g, hg, hgp⟩ := h.root
    exact ⟨g, hext.item hg, hgp⟩
  · intro k' c hc
    by_cases hk : k = k'
    · subst hk
      rw [insert_item_self] at hc
      cases hc
      obtain ⟨bs, hbs⟩ := h.branch hknown
      exact ⟨bs ++ [b], .step (hbs.mono hext) (insert_item_self k b) hparent⟩
    · rw [insert_item_of_ne hk] at hc
      obtain ⟨bs, hbs⟩ := h.branch hc
      exact ⟨bs, hbs.mono hext⟩

end Forest

end PaqusNode
