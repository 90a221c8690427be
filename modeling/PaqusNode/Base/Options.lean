/-!
# PaqusNode.Base.Options

Command lines that are read from left to right: an argument that names an
option takes the next one as its value, whatever that looks like, and any other
argument stands for itself.  A successful reading is a relation to do
induction on, and one command line can be read by two commands.
-/

namespace PaqusNode

/-- How a command reads its arguments. -/
structure Options (O S E : Type) where
  /-- The arguments that take a value. -/
  ofName : String → Option O
  /-- What an option does with the value, which may be missing at the end. -/
  set : S → Option String → O → Except E S
  /-- What any other argument does. -/
  word : S → String → Except E S

namespace Options

variable {O S E : Type}

/-- The loop over the arguments. -/
def read (options : Options O S E) : S → List String → Except E S
  | s, [] => .ok s
  | s, [arg] =>
      match options.ofName arg with
      | some option => options.set s none option
      | none => options.word s arg
  | s, arg :: value :: rest =>
      match options.ofName arg with
      | some option =>
          match options.set s (some value) option with
          | .error e => .error e
          | .ok s => options.read s rest
      | none =>
          match options.word s arg with
          | .error e => .error e
          | .ok s => options.read s (value :: rest)

/-- The arguments are read without an error. -/
inductive Reads (options : Options O S E) : S → List String → S → Prop
  | nil (s : S) : Reads options s [] s
  | last {s s' : S} {arg : String} {option : O} (hname : options.ofName arg = some option)
      (hset : options.set s none option = .ok s') : Reads options s [arg] s'
  | option {s s₁ s' : S} {arg value : String} {rest : List String} {option : O}
      (hname : options.ofName arg = some option)
      (hset : options.set s (some value) option = .ok s₁) (hrest : Reads options s₁ rest s') :
      Reads options s (arg :: value :: rest) s'
  | word {s s₁ s' : S} {arg : String} {rest : List String} (hname : options.ofName arg = none)
      (hword : options.word s arg = .ok s₁) (hrest : Reads options s₁ rest s') :
      Reads options s (arg :: rest) s'

variable {options : Options O S E}

theorem read_option {s s₁ : S} {arg value : String} {option : O} (rest : List String)
    (hname : options.ofName arg = some option)
    (hset : options.set s (some value) option = .ok s₁) :
    options.read s (arg :: value :: rest) = options.read s₁ rest := by
  rw [read]
  simp only [hname, hset]

/-- A word that is no option. -/
theorem read_word {s s₁ : S} {arg : String} (rest : List String)
    (hname : options.ofName arg = none) (hword : options.word s arg = .ok s₁) :
    options.read s (arg :: rest) = options.read s₁ rest := by
  cases rest with
  | nil => simp [read, hname, hword]
  | cons value rest =>
      rw [read]
      simp only [hname, hword]

theorem Reads.read_eq {s s' : S} {args : List String} (h : options.Reads s args s') :
    options.read s args = .ok s' := by
  induction h with
  | nil s => rfl
  | last hname hset => simp only [read, hname, hset]
  | option hname hset hrest ih => rw [read_option _ hname hset, ih]
  | word hname hword hrest ih => rw [read_word _ hname hword, ih]

/-- What the loop accepts is a sequence of options it knows. -/
theorem reads_of_read {s s' : S} {args : List String} (h : options.read s args = .ok s') :
    options.Reads s args s' := by
  fun_induction options.read s args with
  | case1 s => exact Except.ok.inj h ▸ .nil s
  | case2 s arg option hname => exact .last hname h
  | case3 s arg hname => exact .word hname h (.nil s')
  | case4 s arg value rest option hname e hset => cases h
  | case5 s arg value rest option hname s₁ hset ih => exact .option hname hset (ih h)
  | case6 s arg value rest hname e hword => cases h
  | case7 s arg value rest hname s₁ hword ih => exact .word hname hword (ih h)

theorem read_eq_ok {s s' : S} {args : List String} :
    options.read s args = .ok s' ↔ options.Reads s args s' :=
  ⟨reads_of_read, Reads.read_eq⟩

/-- The invariant rule of the loop. -/
theorem Reads.invariant (I : S → Prop) {s s' : S} {args : List String}
    (h : options.Reads s args s')
    (hset : ∀ arg ∈ args, ∀ option, options.ofName arg = some option → ∀ s s' value, I s →
      options.set s value option = .ok s' → I s')
    (hword : ∀ arg ∈ args, ∀ s s', I s → options.word s arg = .ok s' → I s') (hs : I s) : I s' := by
  induction h with
  | nil s => exact hs
  | last hname hset' => exact hset _ List.mem_cons_self _ hname _ _ _ hs hset'
  | option hname hset' hrest ih =>
      refine ih (fun arg harg => hset arg ?_) (fun arg harg => hword arg ?_)
        (hset _ List.mem_cons_self _ hname _ _ _ hs hset')
      · simp [harg]
      · simp [harg]
  | word hname hword' hrest ih =>
      refine ih (fun arg harg => hset arg ?_) (fun arg harg => hword arg ?_)
        (hword _ List.mem_cons_self _ _ hs hword')
      · simp [harg]
      · simp [harg]

/-- What an option does may be replaced by what succeeds in the same way. -/
theorem Reads.mono {s s' : S} {args : List String} (h : options.Reads s args s')
    {set : S → Option String → O → Except E S}
    (hset : ∀ {s value option s'}, options.set s value option = .ok s' →
      set s value option = .ok s') : { options with set := set }.Reads s args s' := by
  induction h with
  | nil s => exact .nil s
  | last hname hset' => exact .last hname (hset hset')
  | option hname hset' _ ih => exact .option hname (hset hset') ih
  | word hname hword _ ih => exact .word hname hword ih

/-- **One command line, two commands.**  What a command reads with all its
values, another one reads with the same effect, also with more arguments
behind, if it knows the options and does with each of them what corresponds. -/
theorem Reads.simulated {O' S' E' : Type} {other : Options O' S' E'} {R : S → S' → Prop}
    (hvalue : ∀ s option s', options.set s none option ≠ .ok s')
    (hoption : ∀ {arg value option s s' t}, options.ofName arg = some option → R s t →
      options.set s (some value) option = .ok s' →
      ∃ option' t', other.ofName arg = some option' ∧
        other.set t (some value) option' = .ok t' ∧ R s' t')
    (hword : ∀ {arg s s' t}, options.ofName arg = none → R s t → options.word s arg = .ok s' →
      ∃ t', other.ofName arg = none ∧ other.word t arg = .ok t' ∧ R s' t')
    {s s' : S} {args : List String} (h : options.Reads s args s') {t : S'} (hR : R s t) :
    ∃ t', R s' t' ∧ ∀ rest, other.read t (args ++ rest) = other.read t' rest := by
  induction h generalizing t with
  | nil s => exact ⟨t, hR, fun _ => rfl⟩
  | last hname hset => exact absurd hset (hvalue _ _ _)
  | option hname hset hrest ih =>
      obtain ⟨option', t₁, hname', hset', hR'⟩ := hoption hname hR hset
      obtain ⟨t', hend, hread⟩ := ih hR'
      exact ⟨t', hend, fun rest => (read_option _ hname' hset').trans (hread rest)⟩
  | word hname hword' hrest ih =>
      obtain ⟨t₁, hname', hset', hR'⟩ := hword hname hR hword'
      obtain ⟨t', hend, hread⟩ := ih hR'
      exact ⟨t', hend, fun rest => (read_word _ hname' hset').trans (hread rest)⟩

end Options

end PaqusNode
