/-
Senders that are stopped by lack of room.

A sender changes a state and puts messages into a buffer that has room for so many
messages; it fails when it wants to put one more, and then what follows it is not done
(`Sender.seq`).  What a sender has put before stays in the buffer, so that its effect is
described by an invariant of the state and of all messages put so far (`Sender.Keeps`),
and by a number of messages that is room enough for it (`Sender.Uses`).
-/
import Mathlib.Algebra.Ring.Nat

namespace SmartHAProxy

/-- What a sender leaves: the state, the messages, and the room, if it has not failed. -/
structure Sent (σ μ : Type*) where
  state : σ
  out : List μ
  room : Option ℕ

/-- A sender, applied to a state and to the number of messages there is room for. -/
abbrev Sender (σ μ : Type*) := σ → ℕ → Sent σ μ

namespace Sender

variable {σ μ : Type*}
variable {c : σ → Bool} {Q : σ → Prop}

def skip (f : σ → σ) : Sender σ μ := fun s room => ⟨f s, [], some room⟩

/-- One message, and what is noted when it has been put. -/
def put (m : μ) (f : σ → σ) : Sender σ μ := fun s room =>
  match room with
  | 0 => ⟨s, [], none⟩
  | room + 1 => ⟨f s, [m], some room⟩

/-- What the second sender does if the first one has not failed. -/
def andThen (r : Sent σ μ) (g : Sender σ μ) : Sent σ μ :=
  match r.room with
  | none => r
  | some room => ⟨(g r.state room).state, r.out ++ (g r.state room).out, (g r.state room).room⟩

def seq (f g : Sender σ μ) : Sender σ μ := fun s room => andThen (f s room) g

/-- A sender that is left out under a condition. -/
def skipIf (c : σ → Bool) (f : Sender σ μ) : Sender σ μ := fun s room =>
  if c s then ⟨s, [], some room⟩ else f s room

/-- One sender for each element of a list. -/
def each {α : Type*} (f : α → Sender σ μ) : List α → Sender σ μ
  | [] => skip id
  | a :: l => seq (f a) (each f l)

/-! ### Invariants -/

/-- What a sender makes of a property of the state and of the messages put so far,
whether it fails or not. -/
def Moves (I J : σ → List μ → Prop) (f : Sender σ μ) : Prop :=
  ∀ s h room, I s h → J (f s room).state (h ++ (f s room).out)

/-- An invariant of the state and of the messages. -/
def Keeps (I : σ → List μ → Prop) (f : Sender σ μ) : Prop := Moves I I f

variable {I : σ → List μ → Prop} {f g : Sender σ μ}

theorem Keeps.andThen (hg : Keeps I g) {r : Sent σ μ} {h : List μ} (hr : I r.state (h ++ r.out)) :
    I (andThen r g).state (h ++ (andThen r g).out) := by
  rw [Sender.andThen]
  rcases hroom : r.room with - | room
  · exact hr
  · rw [← List.append_assoc]
    exact hg r.state (h ++ r.out) room hr

theorem Keeps.seq (hf : Keeps I f) (hg : Keeps I g) : Keeps I (seq f g) :=
  fun s h room hI => hg.andThen (hf s h room hI)

theorem Keeps.skip {f : σ → σ} (hf : ∀ s h, I s h → I (f s) h) : Keeps I (skip f) := by
  intro s h room hI
  show I (f s) (h ++ [])
  rw [List.append_nil]
  exact hf s h hI

theorem Keeps.skipIf (hf : Moves (fun s h => I s h ∧ c s = false) I f) : Keeps I (skipIf c f) := by
  intro s h room hI
  rw [Sender.skipIf]
  split_ifs with hc
  · rwa [List.append_nil]
  · exact hf s h room ⟨hI, by simpa using hc⟩

theorem Keeps.each {α : Type*} {f : α → Sender σ μ} {l : List α} (hf : ∀ a ∈ l, Keeps I (f a)) :
    Keeps I (each f l) := by
  induction l with
  | nil => exact Keeps.skip fun _ _ hI => hI
  | cons a l ih =>
    exact (hf a List.mem_cons_self).seq (ih fun b hb => hf b (List.mem_cons_of_mem a hb))

/-! ### What holds when a sender has not failed -/

/-- A sender that has not failed leaves the state with a property. -/
def Leaves (I : σ → List μ → Prop) (f : Sender σ μ) (Q : σ → Prop) : Prop :=
  ∀ s h room, I s h → (f s room).room ≠ none → Q (f s room).state

theorem Keeps.seq_of_leaves (hf : Keeps I f) (hq : Leaves I f Q)
    (hg : Moves (fun s h => I s h ∧ Q s) I g) : Keeps I (Sender.seq f g) := by
  intro s h room hI
  have hmid := hf s h room hI
  rw [Sender.seq, Sender.andThen]
  rcases hroom : (f s room).room with - | room'
  · exact hmid
  · rw [← List.append_assoc]
    exact hg _ _ room' ⟨hmid, hq s h room hI (by rw [hroom]; exact Option.some_ne_none _)⟩

theorem Leaves.seq_of_leaves {R : σ → Prop} (hf : Keeps I f) (hq : Leaves I f Q)
    (hg : Leaves (fun s h => I s h ∧ Q s) g R) : Leaves I (Sender.seq f g) R := by
  intro s h room hI hroom
  rw [Sender.seq, Sender.andThen] at hroom ⊢
  rcases hr : (f s room).room with - | room'
  · rw [hr] at hroom
    exact absurd hr hroom
  · rw [hr] at hroom
    have hQ : Q (f s room).state := hq s h room hI (by rw [hr]; exact Option.some_ne_none _)
    exact hg _ _ room' ⟨hf s h room hI, hQ⟩ hroom

theorem Leaves.skipIf (hc : ∀ s h, I s h → c s = true → Q s)
    (hf : Leaves (fun s h => I s h ∧ c s = false) f Q) : Leaves I (Sender.skipIf c f) Q := by
  intro s h room hI hroom
  rw [Sender.skipIf] at hroom ⊢
  split_ifs at hroom ⊢ with h'
  · exact hc s h hI h'
  · exact hf s h room ⟨hI, by simpa using h'⟩ hroom

theorem Leaves.seq (hf : Keeps I f) (hg : Leaves I g Q) : Leaves I (Sender.seq f g) Q :=
  Leaves.seq_of_leaves (Q := fun _ => True) hf (fun _ _ _ _ _ => trivial)
    fun s h room hI => hg s h room hI.1

theorem Leaves.seq_left (hk : Keeps I f) (hf : Leaves I f Q)
    (hg : Keeps (fun s h => I s h ∧ Q s) g) : Leaves I (Sender.seq f g) Q := by
  intro s h room hI hroom
  rw [Sender.seq, Sender.andThen] at hroom ⊢
  rcases hr : (f s room).room with - | room'
  · rw [hr] at hroom
    exact absurd hr hroom
  · have hQ : Q (f s room).state := hf s h room hI (by rw [hr]; exact Option.some_ne_none _)
    exact (hg _ _ room' ⟨hk s h room hI, hQ⟩).2

theorem Leaves.each {α : Type*} {f : α → Sender σ μ} {l : List α} {a : α} (ha : a ∈ l)
    (hk : ∀ b ∈ l, Keeps I (f b)) (hq : ∀ b ∈ l, Keeps (fun s h => I s h ∧ Q s) (f b))
    (hf : Leaves I (f a) Q) : Leaves I (Sender.each f l) Q := by
  induction l with
  | nil => cases ha
  | cons b l ih =>
    have hkl : ∀ c ∈ l, Keeps I (f c) := fun c hc => hk c (List.mem_cons_of_mem b hc)
    have hql : ∀ c ∈ l, Keeps (fun s h => I s h ∧ Q s) (f c) :=
      fun c hc => hq c (List.mem_cons_of_mem b hc)
    rcases List.mem_cons.mp ha with rfl | ha
    · exact hf.seq_left (hk a List.mem_cons_self) (Keeps.each hql)
    · exact (ih ha hkl hql).seq (hk b List.mem_cons_self)

/-! ### Room -/

/-- There is room enough for a sender when there is room for `n` messages. -/
def Uses (I : σ → List μ → Prop) (f : Sender σ μ) (n : ℕ) : Prop :=
  ∀ s h room, I s h → n ≤ room → ∃ room', (f s room).room = some room' ∧ room ≤ room' + n

theorem Uses.seq_of_leaves {m n : ℕ} (hf : Uses I f m) (hk : Keeps I f) (hq : Leaves I f Q)
    (hg : Uses (fun s h => I s h ∧ Q s) g n) : Uses I (Sender.seq f g) (m + n) := by
  intro s h room hI hle
  obtain ⟨room', hr, hroom⟩ := hf s h room hI (by omega)
  have hQ : Q (f s room).state := hq s h room hI (by rw [hr]; exact Option.some_ne_none _)
  obtain ⟨room'', hr', hroom'⟩ := hg _ _ room' ⟨hk s h room hI, hQ⟩ (by omega)
  refine ⟨room'', ?_, by omega⟩
  rw [Sender.seq, Sender.andThen, hr]
  exact hr'

theorem Uses.seq {m n : ℕ} (hk : Keeps I f) (hf : Uses I f m) (hg : Uses I g n) :
    Uses I (Sender.seq f g) (m + n) :=
  hf.seq_of_leaves (Q := fun _ => True) hk (fun _ _ _ _ _ => trivial)
    fun s h room hI => hg s h room hI.1

theorem Uses.skip {f : σ → σ} : Uses I (skip f) 0 := fun _ _ room _ _ => ⟨room, rfl, Nat.le_refl _⟩

theorem Uses.put {m : μ} {f : σ → σ} : Uses I (put m f) 1 := by
  rintro s h (- | room) - hle
  · cases hle
  · exact ⟨room, rfl, Nat.le_refl _⟩

theorem Uses.skipIf {n : ℕ} (hf : Uses (fun s h => I s h ∧ c s = false) f n) :
    Uses I (skipIf c f) n := by
  intro s h room hI hle
  rw [Sender.skipIf]
  split_ifs with hc
  · exact ⟨room, rfl, Nat.le_add_right room n⟩
  · exact hf s h room ⟨hI, by simpa using hc⟩ hle

theorem Uses.each {α : Type*} {f : α → Sender σ μ} {n : α → ℕ} {l : List α}
    (hk : ∀ a ∈ l, Keeps I (f a)) (hf : ∀ a ∈ l, Uses I (f a) (n a)) :
    Uses I (each f l) (l.map n).sum := by
  induction l with
  | nil => exact Uses.skip
  | cons a l ih =>
    rw [List.map_cons, List.sum_cons]
    exact Uses.seq (hk a List.mem_cons_self) (hf a List.mem_cons_self)
      (ih (fun b hb => hk b (List.mem_cons_of_mem a hb))
        fun b hb => hf b (List.mem_cons_of_mem a hb))

end Sender

end SmartHAProxy
