/-
The tree of ranges stands for the set of the numbers received.

`updateRanges_spec` says what one call of `quic_update_ack_ranges_list` does to a tree that
is not empty: nothing, if one of the ranges has the new one in it, and otherwise a tree
whose ranges are apart, that covers the new range too, and whose encoded size has been
computed.  The very first range is inserted without that computation, which
`ackRanges_exact_iff` is about.
-/
import SmartHAProxy.Quic.Pktns

namespace SmartHAProxy

variable {a : QuicArngs} {pre post : List (ℕ × ℕ)} {ar : QuicArng} {ars : List QuicArng}

namespace Quic

open RangeSet

/-! ### One call -/

/-- The ranges of a tree are apart, can be encoded, and are counted. -/
structure QuicArngs.Good (a : QuicArngs) : Prop where
  enc : Encodable a.root.nodes
  sz : a.sz = a.root.nodes.length

theorem encodable_append {rs ss : List (ℕ × ℕ)} (h : RangeSet.Apart (rs ++ ss))
    (hrs : ∀ r ∈ rs, r.2 < 2 ^ 62) (hss : ∀ r ∈ ss, r.2 < 2 ^ 62) : Encodable (rs ++ ss) := by
  refine ⟨h, fun r hr => ?_⟩
  rcases List.mem_append.mp hr with hr | hr
  · exact hrs r hr
  · exact hss r hr

/-- The merge loop swallows what follows the node. -/
theorem mergeNextRanges_eq {new last fuel : ℕ} (bound : ℕ)
    (h : a.root.nodes = pre ++ (new, last) :: post) (hfuel : post.length ≤ fuel) :
    (mergeNextRanges new bound fuel a).root.nodes =
        pre ++ (new, (swallow bound last post).1) :: (swallow bound last post).2 ∧
      (mergeNextRanges new bound fuel a).sz =
        a.sz - (post.length - (swallow bound last post).2.length) ∧
      (swallow bound last post).2.length ≤ post.length := by
  induction post generalizing a last fuel with
  | nil =>
    cases fuel with
    | zero => exact ⟨h, rfl, Nat.le_refl _⟩
    | succ fuel =>
      rw [mergeNextRanges, EbUniq.next_of_split h]
      exact ⟨h, rfl, Nat.le_refl _⟩
  | cons r post ih =>
    obtain ⟨fuel, rfl⟩ : ∃ n, fuel = n + 1 := Nat.exists_eq_add_one.mpr
      (Nat.lt_of_lt_of_le (Nat.succ_pos _) hfuel)
    rw [mergeNextRanges, EbUniq.next_of_split h, swallow]
    simp only [List.head?_cons]
    by_cases hstop : bound + 1 < r.1
    · rw [if_pos hstop, if_pos hstop]
      exact ⟨h, by simp, Nat.le_refl _⟩
    · rw [if_neg hstop, if_neg hstop]
      have hmodify : (a.root.modify new fun last => if last < r.2 then r.2 else last).nodes =
          (pre ++ [(new, if last < r.2 then r.2 else last)]) ++ r :: post := by
        rw [EbUniq.nodes_modify_of_split h, List.append_assoc]
        rfl
      have hdelete := EbUniq.nodes_delete_of_split hmodify
      rw [List.append_assoc] at hdelete
      obtain ⟨hnodes, hsz, hlen⟩ := ih (a := QuicArngs.mk _ (a.sz - 1) a.encSz) hdelete
        (Nat.le_of_succ_le_succ hfuel)
      refine ⟨hnodes, ?_, Nat.le_succ_of_le hlen⟩
      refine hsz.trans ?_
      rw [List.length_cons]
      show a.sz - 1 - _ = _
      omega

theorem mergeNextRanges_spec {new last fuel : ℕ} (h : a.root.nodes = pre ++ (new, last) :: post)
    (hfuel : post.length ≤ fuel) (hpre : Encodable (pre ++ [(new, last)])) (hpost : Encodable post)
    (hsz : a.sz = a.root.nodes.length) :
    (mergeNextRanges new last fuel a).Good ∧ (mergeNextRanges new last fuel a).root.nodes ≠ [] ∧
      ∀ n, Covers (mergeNextRanges new last fuel a).root.nodes n ↔ Covers a.root.nodes n := by
  obtain ⟨hnodes, hsz', hlen⟩ := mergeNextRanges_eq last h hfuel
  have hmem : (new, last) ∈ pre ++ [(new, last)] := List.mem_append_right pre List.mem_cons_self
  obtain ⟨-, hkeys⟩ := EbUniq.keys_lt_of_split h
  obtain ⟨hle, hlt, hsuffix, hgaps, hcovers⟩ := swallow_spec hpost.apart
    (hpre.apart.valid _ hmem) (Nat.le_refl last) hkeys (.inl rfl) (hpre.bound _ hmem) hpost.bound
  obtain ⟨swallowed, hswallowed⟩ := hsuffix
  have hrest : Encodable (swallow last last post).2 :=
    (Encodable.of_append (hswallowed ▸ hpost)).2
  refine ⟨⟨?_, ?_⟩, ?_, fun n => ?_⟩
  · rw [hnodes]
    refine encodable_append (hpre.apart.replace hrest.apart hle hgaps)
      (fun r hr => hpre.bound r (List.mem_append_left _ hr)) (fun r hr => ?_)
    rcases List.mem_cons.mp hr with rfl | hr
    · exact hlt
    · exact hrest.bound r hr
  · rw [hsz', hsz, hnodes, h]
    simp only [List.length_append, List.length_cons]
    omega
  · rw [hnodes]
    exact List.append_ne_nil_of_right_ne_nil pre (List.cons_ne_nil _ _)
  · rw [hnodes, h, covers_append, covers_append, covers_cons, covers_cons]
    exact or_congr_right (hcovers n)

/-- A range is within one of the ranges of the tree. -/
def QuicArngs.Contains (a : QuicArngs) (ar : QuicArng) : Prop :=
  ∃ r ∈ a.root.nodes, r.1 ≤ ar.first ∧ ar.last ≤ r.2

/-- What a call that changes the tree leads to. -/
structure QuicArngs.Updated (a : QuicArngs) (ar : QuicArng) (a' : QuicArngs) : Prop where
  good : a'.Good
  ne : a'.root.nodes ≠ []
  encSz : a'.encSz = rangesSize a'.sz a'.root.nodes.reverse
  covers : ∀ n, Covers a'.root.nodes n ↔ Covers a.root.nodes n ∨ (ar.first ≤ n ∧ n ≤ ar.last)

theorem updated_of_merge {b : QuicArngs} {new fuel : ℕ}
    (h : b.root.nodes = pre ++ (new, ar.last) :: post) (hfuel : post.length ≤ fuel)
    (hpre : Encodable (pre ++ [(new, ar.last)])) (hpost : Encodable post)
    (hsz : b.sz = b.root.nodes.length)
    (hcovers : ∀ n, Covers b.root.nodes n ↔ Covers a.root.nodes n ∨ (ar.first ≤ n ∧ n ≤ ar.last)) :
    a.Updated ar (quicArngsSetEncSz (mergeNextRanges new ar.last fuel b)) := by
  obtain ⟨hgood, hne, hsame⟩ := mergeNextRanges_spec h hfuel hpre hpost hsz
  rw [quicArngsSetEncSz_eq _ hne]
  exact ⟨⟨hgood.enc, hgood.sz⟩, hne, rfl, fun n => (hsame n).trans (hcovers n)⟩

theorem covers_insert (n : ℕ) :
    Covers (pre ++ (ar.first, ar.last) :: post) n ↔
      Covers (pre ++ post) n ∨ (ar.first ≤ n ∧ n ≤ ar.last) := by
  rw [covers_append, covers_append, covers_cons]
  simp only [or_comm, or_left_comm]

/-- **One call** on a tree that is not empty. -/
theorem updateRanges_spec (ha : a.Good) (hne : a.root.nodes ≠ []) (har : ar.first ≤ ar.last)
    (hbound : ar.last < 2 ^ 62) :
    (a.Contains ar ∧ quicUpdateAckRangesList a ar = a) ∨
      (¬ a.Contains ar ∧ a.Updated ar (quicUpdateAckRangesList a ar)) := by
  have hkeys : ∀ r ∈ a.root.above ar.first, ar.first < r.1 := fun r hr =>
    of_decide_eq_true (List.mem_filter.mp hr).2
  rw [quicUpdateAckRangesList, if_neg hne]
  dsimp only
  cases hle : a.root.lookupLe ar.first with
  | none =>
    right
    have hnodes := EbUniq.lookupLe_eq_none hle
    have hinsert : (quicInsertNewRange a.root ar).nodes =
        [] ++ (ar.first, ar.last) :: a.root.above ar.first :=
      EbUniq.nodes_insert_of_append ((List.nil_append _).symm ▸ hnodes)
        (fun _ h => absurd h List.not_mem_nil) hkeys ar.last
    refine ⟨?_, updated_of_merge hinsert ?_ ?_ (hnodes ▸ ha.enc) ?_ fun n => ?_⟩
    · rintro ⟨r, hr, hfirst, -⟩
      exact Nat.not_lt.mpr hfirst (hkeys r (hnodes ▸ hr))
    · show _ ≤ (quicInsertNewRange a.root ar).nodes.length
      rw [hinsert]
      simp
    · exact ⟨apart_cons.mpr ⟨har, nofun, apart_nil⟩, fun r hr => by
        obtain rfl := List.mem_singleton.mp hr
        exact hbound⟩
    · show a.sz + 1 = (quicInsertNewRange a.root ar).nodes.length
      rw [hinsert, ha.sz, List.nil_append, List.length_cons, ← hnodes]
    · show Covers (quicInsertNewRange a.root ar).nodes n ↔ _
      rw [hinsert, covers_insert, List.nil_append, ← hnodes]
  | some le =>
    obtain ⟨hkey, pre, hnodes⟩ := EbUniq.lookupLe_eq_some hle
    have hmem : le ∈ a.root.nodes := by
      rw [hnodes]
      exact List.mem_append_right pre List.mem_cons_self
    have henc : Encodable (pre ++ le :: a.root.above ar.first) := hnodes ▸ ha.enc
    obtain ⟨hencPre, hencLe⟩ := henc.of_append
    obtain ⟨hleValid, hleGap, hencPost⟩ := apart_cons.mp hencLe.apart
    have hfront : ∀ r ∈ pre, r.2 + 1 < le.1 := fun r hr =>
      (apart_append.mp henc.apart).2.2 r hr le List.mem_cons_self
    have hpostBound : ∀ r ∈ a.root.above ar.first, r.2 < 2 ^ 62 := fun r hr =>
      hencLe.bound r (List.mem_cons_of_mem le hr)
    simp only []
    by_cases hexisting : le.1 ≤ ar.first ∧ ar.last ≤ le.2
    · exact .inl ⟨⟨le, hmem, hexisting⟩, if_pos hexisting⟩
    rw [if_neg hexisting]
    right
    have hlast : le.2 < ar.last := Nat.not_le.mp fun h => hexisting ⟨hkey, h⟩
    -- only the node that has been found can have the range in it
    have hnot : ¬ a.Contains ar := by
      rintro ⟨r, hr, hfirst, hlast'⟩
      rw [hnodes] at hr
      rcases List.mem_append.mp hr with hr | hr
      · have h1 := hfront r hr
        omega
      · rcases List.mem_cons.mp hr with rfl | hr
        · omega
        · exact Nat.not_lt.mpr hfirst (hkeys r hr)
    refine ⟨hnot, ?_⟩
    by_cases htouch : ar.first ≤ le.2 + 1
    · -- the range found is extended
      rw [if_pos htouch]
      have hmodify : (a.root.modify le.1 fun _ => ar.last).nodes =
          pre ++ (le.1, ar.last) :: a.root.above ar.first :=
        EbUniq.nodes_modify_of_split hnodes _
      refine updated_of_merge hmodify ?_ ?_ ⟨hencPost, hpostBound⟩ ?_ fun n => ?_
      · have hlen := congrArg List.length hnodes
        rw [List.length_append, List.length_cons] at hlen
        omega
      · refine encodable_append (apart_append.mpr ⟨hencPre.apart,
          apart_cons.mpr ⟨by show le.1 ≤ ar.last; omega, nofun, apart_nil⟩, fun r hr s hs => ?_⟩)
          hencPre.bound fun r hr => ?_
        · obtain rfl := List.mem_singleton.mp hs
          exact hfront r hr
        · obtain rfl := List.mem_singleton.mp hr
          exact hbound
      · show a.sz = (a.root.modify le.1 fun _ => ar.last).nodes.length
        have hlen := congrArg List.length hnodes
        rw [List.length_append, List.length_cons] at hlen
        rw [hmodify, ha.sz, hlen, List.length_append, List.length_cons]
      · show Covers (a.root.modify le.1 fun _ => ar.last).nodes n ↔ _
        rw [hmodify, hnodes, covers_append, covers_append, covers_cons, covers_cons]
        have hjoin : (le.1 ≤ n ∧ n ≤ ar.last) ↔
            (le.1 ≤ n ∧ n ≤ le.2) ∨ (ar.first ≤ n ∧ n ≤ ar.last) := by omega
        rw [hjoin]
        simp only [or_assoc, or_comm, or_left_comm]
    · -- a new range behind it
      rw [if_neg htouch]
      have hfrontKeys : ∀ r ∈ pre ++ [le], r.1 < ar.first := by
        intro r hr
        rcases List.mem_append.mp hr with hr | hr
        · have h1 := hfront r hr
          have h2 := hencPre.apart.valid r hr
          omega
        · obtain rfl := List.mem_singleton.mp hr
          omega
      have hinsert : (quicInsertNewRange a.root ar).nodes =
          (pre ++ [le]) ++ (ar.first, ar.last) :: a.root.above ar.first := by
        refine EbUniq.nodes_insert_of_append ?_ hfrontKeys hkeys ar.last
        rw [List.append_assoc]
        exact hnodes
      have hnodes' : a.root.nodes = (pre ++ [le]) ++ a.root.above ar.first := by
        rw [List.append_assoc]
        exact hnodes
      refine updated_of_merge hinsert ?_ ?_ ⟨hencPost, hpostBound⟩ ?_ fun n => ?_
      · show _ ≤ (quicInsertNewRange a.root ar).nodes.length
        rw [hinsert]
        simp only [List.length_append, List.length_cons]
        omega
      · have hencFront : Encodable (pre ++ [le]) := (Encodable.of_append (hnodes' ▸ ha.enc)).1
        refine encodable_append (apart_append.mpr ⟨hencFront.apart,
          apart_cons.mpr ⟨har, nofun, apart_nil⟩, fun r hr s hs => ?_⟩) hencFront.bound
          fun r hr => ?_
        · obtain rfl := List.mem_singleton.mp hs
          show r.2 + 1 < ar.first
          rcases List.mem_append.mp hr with hr | hr
          · have h1 := hfront r hr
            omega
          · obtain rfl := List.mem_singleton.mp hr
            omega
        · obtain rfl := List.mem_singleton.mp hr
          exact hbound
      · show a.sz + 1 = (quicInsertNewRange a.root ar).nodes.length
        have hlen := congrArg List.length hnodes'
        rw [hinsert, ha.sz, hlen]
        simp only [List.length_append, List.length_cons]
        omega
      · show Covers (quicInsertNewRange a.root ar).nodes n ↔ _
        rw [hinsert, covers_insert, hnodes']

/-! ### All calls -/

/-- The ranges are apart, they cover the numbers given, and they are counted. -/
def QuicArngs.Represents (a : QuicArngs) (ars : List QuicArng) : Prop :=
  RangeSet.Apart a.root.nodes ∧
    (∀ n, Covers a.root.nodes n ↔ ∃ ar ∈ ars, ar.first ≤ n ∧ n ≤ ar.last) ∧
    a.sz = a.root.nodes.length

/-- `enc_sz` is what a frame takes without its delay: with any delay, the frame is built if
and only if there is room for both. -/
def QuicArngs.EncSzExact (a : QuicArngs) : Prop :=
  a.root.nodes ≠ [] → ∀ ackDelay < 2 ^ 62, ∀ l size, l.length ≤ size →
    (∀ buf, quicBuildAckFrame ⟨ackDelay, a⟩ (.of l size) = some buf →
      buf.pos = l.length + (a.encSz + quicIntGetsize ackDelay)) ∧
    ((quicBuildAckFrame ⟨ackDelay, a⟩ (.of l size)).isSome ↔
      l.length + (a.encSz + quicIntGetsize ackDelay) ≤ size)

theorem QuicArngs.Good.sz_encodable (ha : a.Good) (hne : a.root.nodes ≠ []) :
    sub64 a.sz 1 = a.sz - 1 ∧ a.sz - 1 < 2 ^ 62 := by
  have hle := ha.enc.apart.length_le (k := 0) (fun r _ => Nat.zero_le _) ha.enc.bound
  have hpos := List.length_pos_of_ne_nil hne
  rw [ha.sz, sub64_eq hpos (by omega)]
  exact ⟨rfl, by omega⟩

theorem encSzExact_of_eq (ha : a.Good) (hsize : a.encSz = rangesSize a.sz a.root.nodes.reverse) :
    a.EncSzExact := by
  intro hne ackDelay hdelay l size hl
  obtain ⟨hsz, hsz_lt⟩ := ha.sz_encodable hne
  have hbuilds := builds_ackFrame ⟨ackDelay, a⟩ ha.enc hne hdelay (hsz ▸ hsz_lt)
  have hlen : (frameBytes ackDelay a.sz a.root.nodes.reverse).length =
      a.encSz + quicIntGetsize ackDelay := by
    rw [length_frameBytes (fun h => hne (List.reverse_eq_nil_iff.mp h)), hsize]
  rw [← hlen]
  constructor
  · intro buf hbuf
    obtain ⟨-, rfl⟩ := hbuilds.eq_some hl hbuf
    exact List.length_append
  · rw [hbuilds l size hl]
    split_ifs with hfit
    · exact ⟨fun _ => hfit, fun _ => rfl⟩
    · exact ⟨nofun, fun h => absurd h hfit⟩

theorem not_encSzExact_of_zero (ha : a.Good) (hne : a.root.nodes ≠ []) (hzero : a.encSz = 0) :
    ¬ a.EncSzExact := by
  intro h
  obtain ⟨hsz, hsz_lt⟩ := ha.sz_encodable hne
  have hbuilds := builds_ackFrame ⟨0, a⟩ ha.enc hne (Nat.two_pow_pos 62) (hsz ▸ hsz_lt)
  obtain ⟨-, hroom⟩ := h hne 0 (Nat.two_pow_pos 62) [] (a.encSz + quicIntGetsize 0) (Nat.zero_le _)
  have hsome := hroom.mpr (by simp)
  obtain ⟨buf, hbuf⟩ := Option.isSome_iff_exists.mp hsome
  obtain ⟨hfit, -⟩ := hbuilds.eq_some (Nat.zero_le _) hbuf
  rw [length_frameBytes (fun h => hne (List.reverse_eq_nil_iff.mp h)), hzero] at hfit
  have hpos : 0 < rangesSize a.sz a.root.nodes.reverse := by
    obtain ⟨ar, qs, hrev⟩ := List.exists_cons_of_ne_nil (fun h => hne (List.reverse_eq_nil_iff.mp h))
    have hmem : ar ∈ a.root.nodes := List.mem_reverse.mp (hrev ▸ List.mem_cons_self)
    have hlast := quicIntGetsize_pos (ha.enc.bound ar hmem)
    rw [hrev, rangesSize]
    omega
  have hfit' : rangesSize a.sz a.root.nodes.reverse + quicIntGetsize 0 ≤ 0 + quicIntGetsize 0 := by
    simpa using hfit
  omega

def QuicArng.Outside (first ar : QuicArng) : Prop := ar.first < first.first ∨ first.last < ar.last

/-- The state after the calls with `ars`. -/
structure RangesRun (ars : List QuicArng) (a : QuicArngs) : Prop where
  good : a.Good
  covers : ∀ n, Covers a.root.nodes n ↔ ∃ ar ∈ ars, ar.first ≤ n ∧ n ≤ ar.last
  nil : ars = [] → a = quicPktnsInit.rx.arngs
  ne : ars ≠ [] → a.root.nodes ≠ []
  computed : ∀ first, ars.head? = some first → (∃ ar ∈ ars, first.Outside ar) →
    a.encSz = rangesSize a.sz a.root.nodes.reverse
  zero : ∀ first, ars.head? = some first → (¬ ∃ ar ∈ ars, first.Outside ar) →
    a.root.nodes = [(first.first, first.last)] ∧ a.encSz = 0

theorem rangesRun_nil : RangesRun [] quicPktnsInit.rx.arngs where
  good := ⟨⟨apart_nil, nofun⟩, rfl⟩
  covers _ := ⟨fun h => absurd h (covers_nil _), nofun⟩
  nil _ := rfl
  ne h := absurd rfl h
  computed := nofun
  zero := nofun

theorem exists_mem_concat {p : QuicArng → Prop} :
    (∃ x ∈ ars ++ [ar], p x) ↔ (∃ x ∈ ars, p x) ∨ p ar := by
  simp only [List.mem_append, List.mem_singleton, or_and_right, exists_or, exists_eq_left]

theorem rangesRun_first (har : ar.first ≤ ar.last) (hbound : ar.last < 2 ^ 62) :
    RangesRun [ar] (quicUpdateAckRangesList quicPktnsInit.rx.arngs ar) := by
  have hnodes : (quicUpdateAckRangesList quicPktnsInit.rx.arngs ar).root.nodes =
      [(ar.first, ar.last)] := rfl
  have hout : ¬ ∃ x ∈ [ar], ar.Outside x := by
    rintro ⟨x, hx, hout⟩
    obtain rfl := List.mem_singleton.mp hx
    rcases hout with h | h <;> exact Nat.lt_irrefl _ h
  refine ⟨⟨⟨?_, ?_⟩, rfl⟩, fun n => ?_, nofun, fun _ => by rw [hnodes]; exact List.cons_ne_nil _ _,
    fun first hfirst h => ?_, fun first hfirst _ => ?_⟩
  · rw [hnodes]
    exact apart_cons.mpr ⟨har, nofun, apart_nil⟩
  · intro r hr
    rw [hnodes] at hr
    obtain rfl := List.mem_singleton.mp hr
    exact hbound
  · rw [hnodes, covers_cons]
    simp [Covers]
  · obtain rfl := Option.some.inj hfirst
    exact absurd h hout
  · obtain rfl := Option.some.inj hfirst
    exact ⟨hnodes, rfl⟩

/-- A further call. -/
theorem RangesRun.step (h : RangesRun ars a) (hne : ars ≠ []) (har : ar.first ≤ ar.last)
    (hbound : ar.last < 2 ^ 62) : RangesRun (ars ++ [ar]) (quicUpdateAckRangesList a ar) := by
  have hhead : (ars ++ [ar]).head? = ars.head? := by
    obtain ⟨first, rest, rfl⟩ := List.exists_cons_of_ne_nil hne
    rfl
  rcases updateRanges_spec h.good (h.ne hne) har hbound with ⟨hin, heq⟩ | ⟨hout, hupd⟩
  · obtain ⟨r, hr, hfirst, hlast⟩ := hin
    rw [heq]
    refine ⟨h.good, fun n => ?_, fun h => absurd h (by simp), fun _ => h.ne hne,
      fun first hf hex => ?_, fun first hf hex => ?_⟩
    · rw [h.covers n, exists_mem_concat]
      refine ⟨.inl, fun hn => hn.elim id fun ⟨h1, h2⟩ => ?_⟩
      exact (h.covers n).mp ⟨r, hr, hfirst.trans h1, h2.trans hlast⟩
    · rw [hhead] at hf
      by_cases hprev : ∃ x ∈ ars, first.Outside x
      · exact h.computed first hf hprev
      · -- then the tree holds the first range only, and the new one is in it
        obtain ⟨hnodes, -⟩ := h.zero first hf hprev
        rw [hnodes] at hr
        obtain rfl := List.mem_singleton.mp hr
        rcases (exists_mem_concat.mp hex).resolve_left hprev with h1 | h1
        · exact absurd hfirst (Nat.not_le.mpr h1)
        · exact absurd hlast (Nat.not_le.mpr h1)
    · rw [hhead] at hf
      exact h.zero first hf fun hprev => hex (exists_mem_concat.mpr (.inl hprev))
  · refine ⟨hupd.good, fun n => ?_, fun h => absurd h (by simp), fun _ => hupd.ne,
      fun _ _ _ => hupd.encSz, fun first hf hex => ?_⟩
    · rw [hupd.covers n, h.covers n, exists_mem_concat]
    · rw [hhead] at hf
      exfalso
      obtain ⟨hnodes, -⟩ := h.zero first hf fun hprev => hex (exists_mem_concat.mpr (.inl hprev))
      apply hout
      refine ⟨(first.first, first.last), hnodes ▸ List.mem_cons_self, ?_, ?_⟩
      · exact Nat.not_lt.mp fun h1 => hex (exists_mem_concat.mpr (.inr (.inl h1)))
      · exact Nat.not_lt.mp fun h1 => hex (exists_mem_concat.mpr (.inr (.inr h1)))

theorem rangesRun_foldl (h : ∀ ar ∈ ars, ar.first ≤ ar.last ∧ ar.last < 2 ^ 62) :
    RangesRun ars (ars.foldl quicUpdateAckRangesList quicPktnsInit.rx.arngs) := by
  induction ars using List.reverseRecOn with
  | nil => exact rangesRun_nil
  | append_singleton ars ar ih =>
    have hrun := ih fun x hx => h x (List.mem_append_left _ hx)
    obtain ⟨har, hbound⟩ := h ar (List.mem_append_right ars List.mem_cons_self)
    rw [List.foldl_concat]
    by_cases hne : ars = []
    · subst hne
      exact rangesRun_first har hbound
    · exact hrun.step hne har hbound

/-- **The ranges represent the numbers received**, and their encoded size is exact, after
any calls if and only if none has been made yet or some range given is not within the first
one. -/
theorem ackRanges_exact_iff (ars : List QuicArng)
    (h : ∀ ar ∈ ars, ar.first ≤ ar.last ∧ ar.last < 2 ^ 62) :
    ((ars.foldl quicUpdateAckRangesList quicPktnsInit.rx.arngs).Represents ars ∧
      (ars.foldl quicUpdateAckRangesList quicPktnsInit.rx.arngs).EncSzExact) ↔
    ∀ first, ars.head? = some first → ∃ ar ∈ ars, first.Outside ar := by
  have hrun := rangesRun_foldl h
  generalize ars.foldl quicUpdateAckRangesList quicPktnsInit.rx.arngs = a at hrun
  constructor
  · rintro ⟨-, hexact⟩ first hfirst
    by_contra hout
    have hne : ars ≠ [] := by
      rintro rfl
      cases hfirst
    exact not_encSzExact_of_zero hrun.good (hrun.ne hne) (hrun.zero first hfirst hout).2 hexact
  · intro hout
    refine ⟨⟨hrun.good.enc.apart, hrun.covers, hrun.good.sz⟩, ?_⟩
    cases hfirst : ars.head? with
    | none =>
      intro hne
      obtain rfl := hrun.nil (List.head?_eq_none_iff.mp hfirst)
      exact absurd rfl hne
    | some first =>
      exact encSzExact_of_eq hrun.good (hrun.computed first hfirst (hout first hfirst))

/-- Two packets. -/
theorem ackRanges_exact_two :
    (∀ ar ∈ [QuicArng.mk 0 0, ⟨2, 2⟩], ar.first ≤ ar.last ∧ ar.last < 2 ^ 62) ∧
      (([QuicArng.mk 0 0, ⟨2, 2⟩].foldl quicUpdateAckRangesList
        quicPktnsInit.rx.arngs).EncSzExact) := by
  have hbounds : ∀ ar ∈ [QuicArng.mk 0 0, ⟨2, 2⟩], ar.first ≤ ar.last ∧ ar.last < 2 ^ 62 := by
    decide
  refine ⟨hbounds, ((ackRanges_exact_iff _ hbounds).mpr fun first hfirst => ?_).2⟩
  obtain rfl := Option.some.inj hfirst
  exact ⟨⟨2, 2⟩, by decide, .inr (by decide)⟩

/-- **The ranges represent the numbers received**, but their size is 0 after the first
packet. -/
theorem not_ackRanges_exact :
    ¬ ∀ ars : List QuicArng, (∀ ar ∈ ars, ar.first ≤ ar.last ∧ ar.last < 2 ^ 62) →
      (ars.foldl quicUpdateAckRangesList quicPktnsInit.rx.arngs).Represents ars ∧
        (ars.foldl quicUpdateAckRangesList quicPktnsInit.rx.arngs).EncSzExact := by
  intro h
  obtain ⟨-, hexact⟩ := h [⟨0, 0⟩] (by decide)
  have hrun : RangesRun [⟨0, 0⟩] _ := rangesRun_first (Nat.le_refl 0) (Nat.two_pow_pos 62)
  exact not_encSzExact_of_zero hrun.good (hrun.ne (List.cons_ne_nil _ _)) rfl hexact

end Quic

end SmartHAProxy
