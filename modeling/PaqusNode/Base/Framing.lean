import Mathlib.Algebra.GroupWithZero.Nat
import Mathlib.Logic.Function.Basic

/-!
# PaqusNode.Base.Framing

Bytes on a stream that several writers share.  A writer hands over chunks,
two for each of its messages; a *schedule* is the list of all chunks in the
order they reach the stream, each with its writer.  A schedule that never
cuts between the two chunks of a message is a sequence of whole messages,
in an order that keeps the order of each writer.
-/

namespace PaqusNode

/-! ## Big-endian lengths -/

/-- `u32::to_be_bytes`. -/
def toBeBytes (n : Nat) : List UInt8 :=
  [UInt8.ofNat (n / 2 ^ 24), UInt8.ofNat (n / 2 ^ 16), UInt8.ofNat (n / 2 ^ 8), UInt8.ofNat n]

/-- `u32::from_be_bytes`. -/
def fromBeBytes (bytes : List UInt8) : Nat :=
  bytes.foldl (fun n byte => n * 256 + byte.toNat) 0

@[simp] theorem length_toBeBytes (n : Nat) : (toBeBytes n).length = 4 := rfl

theorem fromBeBytes_toBeBytes {n : Nat} (h : n < 2 ^ 32) : fromBeBytes (toBeBytes n) = n := by
  simp only [toBeBytes, fromBeBytes, List.foldl_cons, List.foldl_nil, UInt8.toNat_ofNat']
  omega

/-- Four bytes are the digits of their number. -/
theorem toBeBytes_fromBeBytes : {bytes : List UInt8} → bytes.length = 4 →
    toBeBytes (fromBeBytes bytes) = bytes
  | [a, b, c, d], _ => by
      have ha := a.toNat_lt
      have hb := b.toNat_lt
      have hc := c.toNat_lt
      have hd := d.toNat_lt
      simp only [toBeBytes, fromBeBytes, List.foldl_cons, List.foldl_nil, List.cons.injEq,
        and_true, ← UInt8.toNat_inj, UInt8.toNat_ofNat']
      omega

/-! ## Reading -/

/-- `read_exact`: the next `n` bytes and what is left, if there are that many. -/
def readExact (n : Nat) (bytes : List UInt8) : Option (List UInt8 × List UInt8) :=
  if n ≤ bytes.length then some (bytes.take n, bytes.drop n) else none

theorem readExact_append {n : Nat} {bytes : List UInt8} (h : bytes.length = n)
    (rest : List UInt8) : readExact n (bytes ++ rest) = some (bytes, rest) := by
  subst h
  simp [readExact]

/-- What is read and what is left are the two parts of the input. -/
theorem readExact_eq_some {n : Nat} {bytes taken rest : List UInt8}
    (h : readExact n bytes = some (taken, rest)) :
    taken = bytes.take n ∧ rest = bytes.drop n ∧ n ≤ bytes.length := by
  unfold readExact at h
  split at h
  · next hle =>
      cases h
      exact ⟨rfl, rfl, hle⟩
  · cases h

theorem append_of_readExact {n : Nat} {bytes taken rest : List UInt8}
    (h : readExact n bytes = some (taken, rest)) : taken.length = n ∧ bytes = taken ++ rest := by
  obtain ⟨rfl, rfl, hle⟩ := readExact_eq_some h
  exact ⟨List.length_take_of_le hle, (List.take_append_drop n bytes).symm⟩

/-! ## Schedules -/

section Schedules

variable {τ α M : Type} [DecidableEq τ]

/-- What the writer `t` contributes to a schedule. -/
def projection (t : τ) (schedule : List (τ × α)) : List α :=
  schedule.filterMap fun write => if write.1 = t then some write.2 else none

theorem projection_cons_self (t : τ) (a : α) (schedule : List (τ × α)) :
    projection t ((t, a) :: schedule) = a :: projection t schedule := by
  simp [projection]

theorem projection_cons_of_ne {t t' : τ} (h : t ≠ t') (a : α) (schedule : List (τ × α)) :
    projection t' ((t, a) :: schedule) = projection t' schedule := by
  simp [projection, h]

/-- A schedule of one writer. -/
theorem projection_eq_map {t : τ} {schedule : List (τ × α)} (h : ∀ write ∈ schedule, write.1 = t) :
    projection t schedule = schedule.map Prod.snd := by
  induction schedule with
  | nil => rfl
  | cons write schedule ih =>
      obtain ⟨t', a⟩ := write
      obtain rfl : t' = t := h _ List.mem_cons_self
      rw [projection_cons_self, List.map_cons,
        ih fun write hwrite => h write (List.mem_cons_of_mem _ hwrite)]

/-- The schedule interleaves the sequences of the writers. -/
def Merges (schedule : List (τ × α)) (sequences : τ → List α) : Prop :=
  ∀ t, projection t schedule = sequences t

/-- The chunks of a sequence of messages, two for each. -/
def chunks (first second : M → α) (messages : List M) : List α :=
  messages.flatMap fun m => [first m, second m]

/-- No writer comes between the two chunks of another. -/
def Uncut : List (τ × α) → Prop
  | [] => True
  | [_] => False
  | (t, _) :: (t', _) :: rest => t = t' ∧ Uncut rest

instance : (schedule : List (τ × α)) → Decidable (Uncut schedule)
  | [] => isTrue trivial
  | [_] => isFalse id
  | (t, _) :: (t', _) :: rest =>
      haveI := instDecidableUncut rest
      inferInstanceAs (Decidable (t = t' ∧ Uncut rest))

variable {first second : M → α} {messages : τ → List M} {t : τ} {a : α}
  {schedule : List (τ × α)}

/-- The first chunk is the first half of the first message. -/
theorem chunks_eq_cons {later : List α} {ms : List M} (h : a :: later = chunks first second ms) :
    ∃ m ms', ms = m :: ms' ∧ a = first m ∧ later = second m :: chunks first second ms' := by
  cases ms with
  | nil => cases h
  | cons m ms' =>
      simp only [chunks, List.flatMap_cons, List.cons_append, List.nil_append,
        List.cons.injEq] at h
      exact ⟨m, ms', rfl, h.1, h.2⟩

theorem Merges.mem {sequences : τ → List α} (h : Merges schedule sequences) {write : τ × α}
    (hwrite : write ∈ schedule) : write.2 ∈ sequences write.1 := by
  rw [← h write.1]
  exact List.mem_filterMap.mpr ⟨write, hwrite, if_pos rfl⟩

/-- The first chunk on the stream starts the first message of its writer, and
the writer's second chunk is next in its turn. -/
theorem Merges.head (h : Merges ((t, a) :: schedule) fun t => chunks first second (messages t)) :
    ∃ m later, messages t = m :: later ∧ a = first m ∧
      projection t schedule = second m :: chunks first second later := by
  have ht := h t
  rw [projection_cons_self] at ht
  exact chunks_eq_cons ht

/-- A writer that comes between starts a message of its own. -/
theorem Merges.cut {t' : τ} {a' : α} (hne : t ≠ t')
    (h : Merges ((t, a) :: (t', a') :: schedule) fun t => chunks first second (messages t)) :
    ∃ m later, messages t' = m :: later ∧ a' = first m := by
  have ht := h t'
  rw [projection_cons_of_ne hne, projection_cons_self] at ht
  obtain ⟨m, later, hmessages, ha, -⟩ := chunks_eq_cons ht
  exact ⟨m, later, hmessages, ha⟩

/-- After a whole message of `t` the rest of the schedule merges the rest. -/
theorem Merges.tail {a' : α} {m : M} {later : List M}
    (h : Merges ((t, a) :: (t, a') :: schedule) fun t => chunks first second (messages t))
    (hmessages : messages t = m :: later) :
    Merges schedule fun t' => chunks first second (Function.update messages t later t') := by
  intro t'
  have ht' : projection t' ((t, a) :: (t, a') :: schedule) = chunks first second (messages t') :=
    h t'
  change projection t' schedule = chunks first second (Function.update messages t later t')
  by_cases heq : t = t'
  · subst heq
    rw [projection_cons_self, projection_cons_self, hmessages] at ht'
    simp only [chunks, List.flatMap_cons, List.cons_append, List.nil_append, List.cons.injEq]
      at ht'
    rw [Function.update_self]
    exact ht'.2.2
  · rw [projection_cons_of_ne heq, projection_cons_of_ne heq] at ht'
    rw [Function.update_of_ne (Ne.symm heq)]
    exact ht'

/-- **An uncut schedule is a sequence of whole messages**, which merges the
messages of the writers. -/
theorem Uncut.whole (huncut : Uncut schedule)
    (h : Merges schedule fun t => chunks first second (messages t)) :
    ∃ merged : List (τ × M), Merges merged messages ∧
      schedule.map Prod.snd = chunks first second (merged.map Prod.snd) := by
  induction schedule using Uncut.induct generalizing messages with
  | case1 =>
      refine ⟨[], fun t => ?_, rfl⟩
      have ht := h t
      cases hmessages : messages t with
      | nil => rfl
      | cons m later => simp [projection, hmessages, chunks] at ht
  | case2 => exact absurd huncut id
  | case3 t a t' a' rest ih =>
      obtain ⟨rfl, huncut⟩ := huncut
      obtain ⟨m, later, hmessages, rfl, hnext⟩ := h.head
      rw [projection_cons_self, List.cons.injEq] at hnext
      obtain ⟨merged, hmerged, hchunks⟩ := ih huncut (h.tail hmessages)
      refine ⟨(t, m) :: merged, fun t' => ?_, ?_⟩
      · by_cases heq : t = t'
        · subst heq
          rw [projection_cons_self, hmerged, Function.update_self, hmessages]
        · rw [projection_cons_of_ne heq, hmerged, Function.update_of_ne (Ne.symm heq)]
      · simp only [List.map_cons, hchunks, hnext.1, chunks, List.flatMap_cons, List.cons_append,
          List.nil_append]

end Schedules

end PaqusNode
