/-
Scanning a prefix of a text.

A format says which texts stand for which values.  A scanner looks for such a
text at the start of its input and ends in one of three ways: it is done and
some input is left, the input is too short to tell, or there is an error at the
first byte after which no text of the format can be reached any more (`Scans`).

The rules follow a scanner byte by byte: after the byte `c` it scans the format
of what may come after `c` (`Scans.cons`).  If no text of a format is a proper
prefix of another one, the result is determined by the input (`Scans.unique`).
-/
import Mathlib.Logic.Basic
import Mathlib.Data.Nat.Notation

namespace SmartHAProxy

variable {α β : Type*}
variable {left left' : ℕ}

abbrev Format (α β : Type*) := β → List α → Prop

/-- How a scan ends; `left` is the length of the input from the end of the text,
or from the faulty byte, on. -/
inductive ScanEnd (β : Type*)
  | short
  | error (left : ℕ)
  | done (left : ℕ) (v : β)
  deriving DecidableEq, Repr

/-- A value made from the one that was found. -/
def ScanEnd.map {γ : Type*} (f : β → γ) : ScanEnd β → ScanEnd γ
  | .short => .short
  | .error left => .error left
  | .done left v => .done left (f v)

/-- The input is a proper prefix of a text of the format. -/
def Extends (L : Format α β) (bs : List α) : Prop := ∃ v l, l ≠ [] ∧ L v (bs ++ l)

/-- What the end of a scan says of the input. -/
def Scans (L : Format α β) (bs : List α) : ScanEnd β → Prop
  | .short => Extends L bs
  | .error left => ∃ p c rest, bs = p ++ c :: rest ∧ left = rest.length + 1 ∧ Extends L p ∧
      ∀ v l, ¬L v (p ++ c :: l)
  | .done left v => ∃ l rest, bs = l ++ rest ∧ left = rest.length ∧ L v l

/-- No text is a proper prefix of another one, and a text has one value. -/
def PrefixFree (L : Format α β) : Prop := ∀ {v v' l l'}, L v l → L v' (l ++ l') → l' = [] ∧ v = v'

namespace Scans

variable {L L' : Format α β} {bs : List α} {c : α} {r r' : ScanEnd β} {v : β}

/-! ### The rules of a scanner -/

theorem cons (hL : ∀ v l, L v (c :: l) ↔ L' v l) (h : Scans L' bs r) : Scans L (c :: bs) r := by
  cases r with
  | short =>
    obtain ⟨v, l, hne, hl⟩ := h
    exact ⟨v, l, hne, (hL v _).mpr hl⟩
  | error left =>
    obtain ⟨p, d, rest, rfl, hleft, ⟨v, l, hne, hl⟩, hstuck⟩ := h
    exact ⟨c :: p, d, rest, rfl, hleft, ⟨v, l, hne, (hL v _).mpr hl⟩,
      fun v l hl => hstuck v l ((hL v _).mp hl)⟩
  | done left v =>
    obtain ⟨l, rest, rfl, hleft, hl⟩ := h
    exact ⟨c :: l, rest, rfl, hleft, (hL v l).mpr hl⟩

theorem head (hL : ∀ v l, L v (c :: l) ↔ L' v (c :: l)) (hne : ∀ v, ¬L' v []) (h₀ : Extends L [])
    (h : Scans L' (c :: bs) r) : Scans L (c :: bs) r := by
  cases r with
  | short =>
    obtain ⟨v, l, hne, hl⟩ := h
    exact ⟨v, l, hne, (hL v _).mpr hl⟩
  | error left =>
    obtain ⟨p, d, rest, heq, hleft, ⟨v, l, hne, hl⟩, hstuck⟩ := h
    rcases p with - | ⟨c', p⟩
    · obtain ⟨rfl, rfl⟩ := List.cons.inj heq
      exact ⟨[], c, bs, rfl, hleft, h₀, fun v l hl => hstuck v l ((hL v l).mp hl)⟩
    · obtain ⟨rfl, rfl⟩ := List.cons.inj heq
      exact ⟨c :: p, d, rest, rfl, hleft, ⟨v, l, hne, (hL v _).mpr hl⟩,
        fun v l hl => hstuck v l ((hL v _).mp hl)⟩
  | done left v =>
    obtain ⟨l, rest, heq, hleft, hl⟩ := h
    rcases l with - | ⟨c', l⟩
    · exact absurd hl (hne v)
    · obtain ⟨rfl, rfl⟩ := List.cons.inj heq
      exact ⟨c :: l, rest, rfl, hleft, (hL v l).mpr hl⟩

theorem map {γ : Type*} {M : Format α γ} {f : β → γ} (hM : ∀ w l, M w l ↔ ∃ v, f v = w ∧ L v l)
    (h : Scans L bs r) : Scans M bs (r.map f) := by
  have himp {v : β} {l : List α} (hl : L v l) : M (f v) l := (hM _ l).mpr ⟨v, rfl, hl⟩
  cases r with
  | short =>
    obtain ⟨v, l, hne, hl⟩ := h
    exact ⟨f v, l, hne, himp hl⟩
  | error left =>
    obtain ⟨p, c, rest, hbs, hleft, ⟨v, l, hne, hl⟩, hstuck⟩ := h
    refine ⟨p, c, rest, hbs, hleft, ⟨f v, l, hne, himp hl⟩, fun w l hl => ?_⟩
    obtain ⟨v, -, hl⟩ := (hM w _).mp hl
    exact hstuck v l hl
  | done left v =>
    obtain ⟨l, rest, hbs, hleft, hl⟩ := h
    exact ⟨l, rest, hbs, hleft, himp hl⟩

theorem stuck (h : Extends L []) (hc : ∀ v l, ¬L v (c :: l)) :
    Scans L (c :: bs) (.error (bs.length + 1)) := ⟨[], c, bs, rfl, rfl, h, hc⟩

/-! ### The result -/

theorem left_le (h : Scans L bs r) :
    (∀ left, r = .error left → 0 < left ∧ left ≤ bs.length) ∧
      ∀ left v, r = .done left v → left ≤ bs.length := by
  refine ⟨fun left hr => ?_, fun left v hr => ?_⟩
  · rw [hr] at h
    obtain ⟨p, c, rest, rfl, rfl, -⟩ := h
    rw [List.length_append, List.length_cons]
    omega
  · rw [hr] at h
    obtain ⟨l, rest, rfl, rfl, -⟩ := h
    rw [List.length_append]
    omega

theorem done_short (hL : PrefixFree L) (h : Scans L bs (.done left v)) (h' : Scans L bs .short) :
    False := by
  obtain ⟨l, rest, rfl, -, hl⟩ := h
  obtain ⟨v', m, hne, hm⟩ := h'
  rw [List.append_assoc] at hm
  exact hne (List.append_eq_nil_iff.mp (hL hl hm).1).2

theorem done_error (hL : PrefixFree L) (h : Scans L bs (.done left v))
    (h' : Scans L bs (.error left')) : False := by
  obtain ⟨l, rest, rfl, -, hl⟩ := h
  obtain ⟨p, c, rest', heq, -, ⟨v', m, hne, hm⟩, hstuck⟩ := h'
  -- either the text ends before the faulty byte, or it contains it
  rcases List.append_eq_append_iff.mp heq with ⟨x, hp, -⟩ | ⟨x, hl', hrest⟩
  · rw [hp, List.append_assoc] at hm
    exact hne (List.append_eq_nil_iff.mp (hL hl hm).1).2
  · rcases x with - | ⟨d, x⟩
    · rw [List.append_nil] at hl'
      rw [← hl'] at hm
      exact hne (hL hl hm).1
    · rw [List.cons_append] at hrest
      obtain ⟨rfl, -⟩ := List.cons.inj hrest
      rw [hl'] at hl
      exact hstuck v x hl

theorem short_error (h : Scans L bs .short) (h' : Scans L bs (.error left)) : False := by
  obtain ⟨v, l, -, hl⟩ := h
  obtain ⟨p, c, rest, rfl, -, -, hstuck⟩ := h'
  rw [List.append_assoc] at hl
  exact hstuck v (rest ++ l) hl

theorem done_done (hL : PrefixFree L) {v' : β} (h : Scans L bs (.done left v))
    (h' : Scans L bs (.done left' v')) : left = left' ∧ v = v' := by
  obtain ⟨l, rest, rfl, rfl, hl⟩ := h
  obtain ⟨l', rest', heq, rfl, hl'⟩ := h'
  rcases List.append_eq_append_iff.mp heq with ⟨x, rfl, rfl⟩ | ⟨x, rfl, rfl⟩
  · obtain ⟨rfl, rfl⟩ := hL hl hl'
    exact ⟨rfl, rfl⟩
  · obtain ⟨rfl, rfl⟩ := hL hl' hl
    exact ⟨rfl, rfl⟩

theorem error_error (h : Scans L bs (.error left)) (h' : Scans L bs (.error left')) :
    left = left' := by
  obtain ⟨p, c, rest, rfl, rfl, hp, hstuck⟩ := h
  obtain ⟨p', c', rest', heq, rfl, hp', hstuck'⟩ := h'
  -- a longer way could not be continued
  have hlonger {p p' rest rest' : List α} {c c' : α} (heq : p ++ c :: rest = p' ++ c' :: rest')
      (hlt : p.length < p'.length) (hstuck : ∀ v l, ¬L v (p ++ c :: l)) : ¬Extends L p' := by
    rintro ⟨v, m, -, hm⟩
    rcases List.append_eq_append_iff.mp heq with ⟨x, rfl, hx⟩ | ⟨x, rfl, -⟩
    · rcases x with - | ⟨d, x⟩
      · rw [List.append_nil] at hlt
        exact Nat.lt_irrefl _ hlt
      · rw [List.cons_append] at hx
        obtain ⟨rfl, -⟩ := List.cons.inj hx
        rw [List.append_assoc, List.cons_append] at hm
        exact hstuck v _ hm
    · rw [List.length_append] at hlt
      omega
  have hlen := congrArg List.length heq
  rw [List.length_append, List.length_append, List.length_cons, List.length_cons] at hlen
  rcases Nat.lt_trichotomy p.length p'.length with hlt | hsame | hlt
  · exact absurd hp' (hlonger heq hlt hstuck)
  · omega
  · exact absurd hp (hlonger heq.symm hlt hstuck')

/-- **The input determines the result.** -/
theorem unique (hL : PrefixFree L) (h : Scans L bs r) (h' : Scans L bs r') : r = r' := by
  cases r with
  | short =>
    cases r' with
    | short => rfl
    | error _ => exact (short_error h h').elim
    | done _ _ => exact (done_short hL h' h).elim
  | error left =>
    cases r' with
    | short => exact (short_error h' h).elim
    | error _ => rw [error_error h h']
    | done _ _ => exact (done_error hL h' h).elim
  | done left v =>
    cases r' with
    | short => exact (done_short hL h h').elim
    | error _ => exact (done_error hL h h').elim
    | done _ _ =>
      obtain ⟨rfl, rfl⟩ := done_done hL h h'
      rfl

end Scans

end SmartHAProxy
