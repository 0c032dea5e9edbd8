import Ukulele.RadixPrune

/-! How many tables a radix tree has: one for each block of keys that holds a key of the tree.
-/

set_option autoImplicit false

namespace RadixTree

variable {F n : Nat} {W P : Type} (c : Coding W P)

def keys (n : Nat) (T : Tree F W n) : Finset Nat :=
  (Finset.range (span F n)).filter (fun k => (get c n T k).isSome = true)

@[simp] theorem mem_keys {T : Tree F W n} {k : Nat} :
    k ∈ keys c n T ↔ k < span F n ∧ (get c n T k).isSome = true := by
  simp [keys]

def slotKeys (n : Nat) : Slot W (Tree F W n) → Finset Nat
  | .absent _ => ∅
  | .table _ t => keys c n t

theorem slotKeys_lt {x : Slot W (Tree F W n)} {r : Nat} (h : r ∈ slotKeys c n x) :
    r < span F n := by
  cases x with
  | absent w => simp [slotKeys] at h
  | table w t => exact ((mem_keys c).mp h).1

theorem span_dvd (F : Nat) {m n : Nat} (h : m ≤ n) : span F m ∣ span F n := by
  induction n with
  | zero => simp_all
  | succ n ih =>
    rcases Nat.le_or_eq_of_le_succ h with hm | rfl
    · exact Dvd.dvd.mul_left (ih hm) F
    · exact dvd_rfl

theorem block_div {i q r : Nat} (h : r < q) : (i * q + r) / q = i := by
  rw [Nat.mul_comm, Nat.mul_add_div (by omega), Nat.div_eq_of_lt h, Nat.add_zero]

theorem mem_keys_succ (hF : 0 < F) {T : Tree F W (n + 1)} {k : Nat} :
    k ∈ keys c (n + 1) T ↔ ∃ i : Fin F, ∃ r ∈ slotKeys c n (T i), i.val * span F n + r = k := by
  have hw := span_pos hF n
  constructor
  · intro h
    obtain ⟨hlt, hget⟩ := (mem_keys c).mp h
    have hi := div_lt_of_lt_span hlt
    refine ⟨⟨k / span F n, hi⟩, k % span F n, ?_, Nat.div_add_mod' k _⟩
    cases hs : T ⟨k / span F n, hi⟩ with
    | absent w => simp [get_of_absent c hi hs] at hget
    | table w t =>
      rw [get_of_table c hi hs] at hget
      exact (mem_keys c).mpr ⟨Nat.mod_lt k hw, hget⟩
  · intro h
    obtain ⟨i, r, hr, rfl⟩ := h
    have hlt := slotKeys_lt c hr
    have hdiv : (i.val * span F n + r) / span F n = i.val := block_div hlt
    have hmod : (i.val * span F n + r) % span F n = r := by
      rw [Nat.mul_comm, Nat.mul_add_mod, Nat.mod_eq_of_lt hlt]
    have hi : (i.val * span F n + r) / span F n < F := by
      rw [hdiv]
      exact i.isLt
    have hfin : (⟨(i.val * span F n + r) / span F n, hi⟩ : Fin F) = i := Fin.ext hdiv
    refine (mem_keys c).mpr ⟨?_, ?_⟩
    · calc
        i.val * span F n + r < i.val * span F n + span F n := Nat.add_lt_add_left hlt _
        _ = (i.val + 1) * span F n := (Nat.succ_mul _ _).symm
        _ ≤ F * span F n := Nat.mul_le_mul_right _ i.isLt
    · cases hs : T i with
      | absent w => simp [hs, slotKeys] at hr
      | table w t =>
        rw [get_of_table c hi (hfin ▸ hs), hmod]
        rw [hs] at hr
        exact ((mem_keys c).mp hr).2

theorem card_entries {q : Nat} {A : Finset Nat} {f : Fin F → Finset Nat}
    (hlt : ∀ i, ∀ d ∈ f i, d < q) (h : ∀ x, x ∈ A ↔ ∃ i, ∃ d ∈ f i, i.val * q + d = x) :
    A.card = ∑ i, (f i).card := by
  have hsplit : A = Finset.univ.biUnion fun i : Fin F => (f i).image (i.val * q + ·) := by
    ext x
    simp [h]
  rw [hsplit, Finset.card_biUnion]
  · apply Finset.sum_congr rfl
    intro i _
    exact Finset.card_image_of_injective _ (add_right_injective _)
  · intro i _ j _ hij
    rw [Function.onFun, Finset.disjoint_left]
    intro x hx hx'
    simp only [Finset.mem_image] at hx hx'
    obtain ⟨d, hd, rfl⟩ := hx
    obtain ⟨e, he, heq⟩ := hx'
    have hval : i.val = j.val := by
      rw [← block_div (i := i.val) (hlt i d hd), ← block_div (i := j.val) (hlt j e he), heq]
    exact hij (Fin.ext hval)

def blocks (F m : Nat) (K : Finset Nat) : Finset Nat := K.image (· / span F m)

@[simp] theorem blocks_empty (F m : Nat) : blocks F m ∅ = ∅ := rfl

theorem block_split (hF : 0 < F) {m : Nat} (hm : m ≤ n) : ∃ q, span F n = span F m * q ∧
    ∀ i r, (i * span F n + r) / span F m = i * q + r / span F m := by
  obtain ⟨q, hq⟩ := span_dvd F hm
  refine ⟨q, hq, ?_⟩
  intro i r
  have hsplit : i * span F n + r = span F m * (i * q) + r := by
    rw [hq]
    ring
  rw [hsplit, Nat.mul_add_div (span_pos hF m)]

theorem block_lt {m q r : Nat} (hq : span F n = span F m * q) (hr : r < span F n) :
    r / span F m < q := by
  apply Nat.div_lt_of_lt_mul
  rw [← hq]
  exact hr

theorem blocks_lt {m q : Nat} (hq : span F n = span F m * q) {K : Finset Nat}
    (hK : ∀ r ∈ K, r < span F n) : ∀ d ∈ blocks F m K, d < q := by
  intro d hd
  obtain ⟨r, hr, rfl⟩ := Finset.mem_image.mp hd
  exact block_lt hq (hK r hr)

theorem card_blocks_succ (hF : 0 < F) (T : Tree F W (n + 1)) {m : Nat} (hm : m ≤ n) :
    (blocks F m (keys c (n + 1) T)).card = ∑ i, (blocks F m (slotKeys c n (T i))).card := by
  obtain ⟨q, hq, hdiv⟩ := block_split hF hm
  apply card_entries (fun i => blocks_lt hq (fun r hr => slotKeys_lt c hr))
  intro x
  simp only [blocks, Finset.mem_image, mem_keys_succ c hF]
  constructor
  · rintro ⟨k, ⟨i, r, hr, rfl⟩, rfl⟩
    exact ⟨i, r / span F m, ⟨r, hr, rfl⟩, (hdiv i r).symm⟩
  · rintro ⟨i, d, ⟨r, hr, rfl⟩, rfl⟩
    exact ⟨i.val * span F n + r, ⟨i, r, hr, rfl⟩, hdiv i r⟩

theorem keys_nonempty (hF : 0 < F) {T : Tree F W n} (hn : NoEmpty c n T) (he : ¬ Empty c n T) :
    (keys c n T).Nonempty := by
  induction n with
  | zero =>
    have hex : ∃ i, c.present (T i) ≠ false := not_forall.mp he
    obtain ⟨i, hi⟩ := hex
    refine ⟨i.val, (mem_keys c).mpr ⟨i.isLt, ?_⟩⟩
    simp [get, hi]
  | succ n ih =>
    have hex : ∃ i, ¬ ∃ w, T i = .absent w := not_forall.mp he
    obtain ⟨i, hi⟩ := hex
    cases hs : T i with
    | absent w => exact absurd ⟨w, hs⟩ hi
    | table w t =>
      obtain ⟨hne, hno⟩ := hn i w t hs
      obtain ⟨r, hr⟩ := ih hno hne
      refine ⟨i.val * span F n + r, (mem_keys_succ c hF).mpr ⟨i, r, ?_, rfl⟩⟩
      rw [hs]
      exact hr

theorem blocks_top {K : Finset Nat} (hne : K.Nonempty) (hK : ∀ k ∈ K, k < span F n) :
    blocks F n K = {0} := by
  obtain ⟨r, hr⟩ := hne
  apply Finset.eq_singleton_iff_unique_mem.mpr
  refine ⟨Finset.mem_image.mpr ⟨r, hr, Nat.div_eq_of_lt (hK r hr)⟩, ?_⟩
  intro b hb
  obtain ⟨k, hk, rfl⟩ := Finset.mem_image.mp hb
  exact Nat.div_eq_of_lt (hK k hk)

theorem card_pages_succ [DecidableEq P] {T : Tree F W (n + 1)} (hs : Separated c (n + 1) T) :
    (pages c (n + 1) T).card = ∑ i, (slotPages c (pages c n) (T i)).card := by
  have hsplit : pages c (n + 1) T =
      Finset.univ.biUnion (fun i => slotPages c (pages c n) (T i)) := by
    ext p
    simp [mem_pages]
  rw [hsplit, Finset.card_biUnion (fun i _ j _ hij => hs.2 i j hij)]

/-- In a tree without empty tables, the tables of one level are the blocks of that level that
hold a key: a tree has as many tables as there are such blocks. -/
theorem card_pages [DecidableEq P] (hF : 0 < F) {T : Tree F W n} (hs : Separated c n T)
    (hn : NoEmpty c n T) :
    (pages c n T).card = ∑ m ∈ Finset.range n, (blocks F m (keys c n T)).card := by
  induction n with
  | zero => simp
  | succ n ih =>
    have hslot : ∀ i, (slotPages c (pages c n) (T i)).card =
        ∑ m ∈ Finset.range (n + 1), (blocks F m (slotKeys c n (T i))).card := by
      intro i
      cases hT : T i with
      | absent w => simp [slotKeys]
      | table w t =>
        obtain ⟨hout, hsep⟩ := hs.1 i w t hT
        obtain ⟨hne, hno⟩ := hn i w t hT
        obtain ⟨r, hr⟩ := keys_nonempty c hF hno hne
        have hone : blocks F n (keys c n t) = {0} :=
          blocks_top ⟨r, hr⟩ (fun k hk => ((mem_keys c).mp hk).1)
        rw [slotPages_of_table, Finset.card_insert_of_notMem hout, ih hsep hno,
          Finset.sum_range_succ]
        simp [slotKeys, hone]
    rw [card_pages_succ c hs]
    calc
      ∑ i, (slotPages c (pages c n) (T i)).card =
          ∑ i, ∑ m ∈ Finset.range (n + 1), (blocks F m (slotKeys c n (T i))).card :=
        Finset.sum_congr rfl (fun i _ => hslot i)
      _ = ∑ m ∈ Finset.range (n + 1), ∑ i, (blocks F m (slotKeys c n (T i))).card :=
        Finset.sum_comm
      _ = ∑ m ∈ Finset.range (n + 1), (blocks F m (keys c (n + 1) T)).card := by
        apply Finset.sum_congr rfl
        intro m hm
        rw [card_blocks_succ c hF T (by simp at hm; omega)]

/-- How many tables the keys from `a` up to `b` lack: the blocks with a key of the range and no
key of the tree. -/
def lack (n : Nat) (T : Tree F W n) (a b : Nat) : Nat :=
  ∑ m ∈ Finset.range n, (blocks F m (Finset.Ico a b) \ blocks F m (keys c n T)).card

theorem mem_lacking (hF : 0 < F) {T : Tree F W (n + 1)} {a b m q : Nat} (hb : b ≤ span F (n + 1))
    (hq : span F n = span F m * q)
    (hdiv : ∀ i r, (i * span F n + r) / span F m = i * q + r / span F m) (x : Nat) :
    x ∈ blocks F m (Finset.Ico a b) \ blocks F m (keys c (n + 1) T) ↔
      ∃ i : Fin F, ∃ d ∈ blocks F m (Finset.Ico (lower a (span F n) i) (upper b (span F n) i)) \
        blocks F m (slotKeys c n (T i)), i.val * q + d = x := by
  have hw := span_pos hF n
  simp only [blocks, Finset.mem_sdiff, Finset.mem_image, Finset.mem_Ico, mem_keys_succ c hF]
  constructor
  · rintro ⟨⟨k, ⟨ha, hk⟩, rfl⟩, hno⟩
    have hi := div_lt_of_lt_span (Nat.lt_of_lt_of_le hk hb)
    have hsplit := hdiv (k / span F n) (k % span F n)
    rw [Nat.div_add_mod'] at hsplit
    refine ⟨⟨k / span F n, hi⟩, k % span F n / span F m, ⟨⟨k % span F n, ⟨?_, ?_⟩, rfl⟩, ?_⟩,
      hsplit.symm⟩
    · exact (lower_le_mod hw).mpr ha
    · exact (mod_lt_upper hw).mpr hk
    · rintro ⟨r, hr, he⟩
      refine hno ⟨k / span F n * span F n + r, ⟨⟨k / span F n, hi⟩, r, hr, rfl⟩, ?_⟩
      rw [hdiv, he, ← hsplit]
  · rintro ⟨i, d, ⟨⟨r, ⟨hlo, hhi⟩, rfl⟩, hno⟩, rfl⟩
    have hr := Nat.lt_of_lt_of_le hhi (upper_le b (span F n) i)
    refine ⟨⟨i.val * span F n + r, ⟨lower_le.mp hlo, (lt_upper hr).mp hhi⟩, hdiv i r⟩, ?_⟩
    rintro ⟨k, ⟨j, r', hr', rfl⟩, he⟩
    rw [hdiv] at he
    have hd := block_lt hq hr
    have hd' := block_lt hq (slotKeys_lt c hr')
    have hij : j = i := by
      apply Fin.ext
      rw [← block_div (i := j.val) hd', ← block_div (i := i.val) hd, he]
    subst hij
    exact hno ⟨r', hr', Nat.add_left_cancel he⟩

variable (zero : W)

def slotLack (n : Nat) (x : Slot W (Tree F W n)) (a b : Nat) : Nat :=
  match x with
  | .absent _ => 1 + lack c n (blank zero n : Tree F W n) a b
  | .table _ t => lack c n t a b

variable {zero}

theorem keys_blank (hz : c.present zero = false) :
    keys c n (blank zero n : Tree F W n) = ∅ := by
  ext k
  simp [get_empty c (empty_blank c hz)]

theorem lack_succ (hF : 0 < F) (hz : c.present zero = false) {T : Tree F W (n + 1)}
    (hn : NoEmpty c (n + 1) T) {a b : Nat} (hab : a < b) (hb : b ≤ span F (n + 1)) :
    lack c (n + 1) T a b = ∑ i : Fin F, if Meets a b (span F n) i then
      slotLack c zero n (T i) (lower a (span F n) i) (upper b (span F n) i) else 0 := by
  have hw := span_pos hF n
  have hcard : ∀ m ∈ Finset.range (n + 1),
      (blocks F m (Finset.Ico a b) \ blocks F m (keys c (n + 1) T)).card =
      ∑ i : Fin F, (blocks F m (Finset.Ico (lower a (span F n) i) (upper b (span F n) i)) \
        blocks F m (slotKeys c n (T i))).card := by
    intro m hm
    obtain ⟨q, hq, hdiv⟩ := block_split hF (Nat.le_of_lt_succ (Finset.mem_range.mp hm))
    apply card_entries ?_ (mem_lacking c hF hb hq hdiv)
    intro i d hd
    refine blocks_lt hq ?_ d (Finset.mem_sdiff.mp hd).1
    intro r hr
    exact Nat.lt_of_lt_of_le (Finset.mem_Ico.mp hr).2 (upper_le b (span F n) i)
  rw [lack, Finset.sum_congr rfl hcard, Finset.sum_comm]
  apply Finset.sum_congr rfl
  intro i _
  by_cases hm : Meets a b (span F n) i
  · have hlt := hm.lower_lt_upper hw hab
    have hone : blocks F n (Finset.Ico (lower a (span F n) i) (upper b (span F n) i)) = {0} := by
      apply blocks_top (Finset.nonempty_Ico.mpr hlt)
      intro r hr
      exact Nat.lt_of_lt_of_le (Finset.mem_Ico.mp hr).2 (upper_le b (span F n) i)
    rw [if_pos hm, Finset.sum_range_succ, hone]
    cases hT : T i with
    | absent w => simp [slotKeys, slotLack, lack, keys_blank c hz, Nat.add_comm]
    | table w t =>
      obtain ⟨hne, hno⟩ := hn i w t hT
      have htop := blocks_top (keys_nonempty c hF hno hne) (fun k hk => ((mem_keys c).mp hk).1)
      simp [slotKeys, slotLack, lack, htop]
  · have hnone : Finset.Ico (lower a (span F n) i) (upper b (span F n) i) = ∅ := by
      ext r
      simp only [Finset.mem_Ico, Finset.notMem_empty, iff_false]
      intro hr
      exact not_meets hm (Nat.lt_of_lt_of_le hr.2 (upper_le b (span F n) i)) hr
    simp [hm, hnone]

section Reserved

variable [DecidableEq P] {fresh : W → Prop}

/-- Reserving below a table of height `n` adds the tables that the range lacks. -/
def ReservesLack (zero : W) (fresh : W → Prop) (n : Nat) : Prop :=
  ∀ {a b : Nat} {T T' : Tree F W n}, a < b → b ≤ span F n → Reserved zero fresh n a b T T' →
    Separated c n T → Separated c n T' → NoEmpty c n T →
    (pages c n T').card = (pages c n T).card + lack c n T a b

theorem ReservesLack.slot (h : ReservesLack (F := F) c zero fresh n) (hz : c.present zero = false)
    {T T' : Tree F W (n + 1)} (hs : Separated c (n + 1) T) (hs' : Separated c (n + 1) T')
    {i : Fin F} (hn : ∀ w t, T i = .table w t → NoEmpty c n t) {a b : Nat} (hab : a < b)
    (hm : Meets a b (span F n) i) {w : W} {t t' : Tree F W n} (hT' : T' i = .table w t')
    (hres : Reserved zero fresh n (lower a (span F n) i) (upper b (span F n) i) t t')
    (hT : T i = .table w t ∨ (∃ v, T i = .absent v) ∧ fresh w ∧ t = blank zero n)
    (hF : 0 < F) :
    (slotPages c (pages c n) (T' i)).card = (slotPages c (pages c n) (T i)).card +
      slotLack c zero n (T i) (lower a (span F n) i) (upper b (span F n) i) := by
  obtain ⟨hout', hsep'⟩ := hs'.1 i w t' hT'
  have hlt := hm.lower_lt_upper (span_pos hF n) hab
  have hle := upper_le b (span F n) i
  rw [hT', slotPages_of_table, Finset.card_insert_of_notMem hout']
  rcases hT with hT | ⟨⟨v, hT⟩, -, rfl⟩
  · obtain ⟨hout, hsep⟩ := hs.1 i w t hT
    rw [h hlt hle hres hsep hsep' (hn w t hT), hT, slotPages_of_table,
      Finset.card_insert_of_notMem hout, slotLack]
    omega
  · rw [h hlt hle hres (separated_blank c) hsep' (noEmpty_blank c), hT, pages_blank c hz,
      slotPages_absent, slotLack]
    simp [Nat.add_comm]

theorem reservesLack (hF : 0 < F) (hz : c.present zero = false) (n : Nat) :
    ReservesLack (F := F) c zero fresh n := by
  induction n with
  | zero =>
    intro a b T T' _ _ _ _ _ _
    simp [lack]
  | succ n ih =>
    intro a b T T' hab hb h hs hs' hn
    rw [card_pages_succ c hs, card_pages_succ c hs', lack_succ c hF hz hn hab hb,
      ← Finset.sum_add_distrib]
    apply Finset.sum_congr rfl
    intro i _
    by_cases hm : Meets a b (span F n) i
    · obtain ⟨w, t, t', hT', hres, hT⟩ := h.slot hm
      rw [if_pos hm]
      exact ih.slot c hz hs hs' (fun w t ht => (hn i w t ht).2) hab hm hT' hres hT hF
    · rw [if_neg hm, h.slot_eq hm, Nat.add_zero]

end Reserved

theorem card_pages_set [DecidableEq P] {T : Tree F W (n + 1)} {i : Fin F}
    {x : Slot W (Tree F W n)} (hs : Separated c (n + 1) T) (hs' : Separated c (n + 1) (T.set i x)) :
    (pages c (n + 1) (T.set i x)).card + (slotPages c (pages c n) (T i)).card =
      (pages c (n + 1) T).card + (slotPages c (pages c n) x).card := by
  have hrest : ∑ j ∈ Finset.univ.erase i, (slotPages c (pages c n) (T.set i x j)).card =
      ∑ j ∈ Finset.univ.erase i, (slotPages c (pages c n) (T j)).card := by
    apply Finset.sum_congr rfl
    intro j hj
    rw [Tree.set_ne _ (Finset.ne_of_mem_erase hj)]
  rw [card_pages_succ c hs, card_pages_succ c hs', ← Finset.add_sum_erase _ _ (Finset.mem_univ i),
    ← Finset.add_sum_erase _ _ (Finset.mem_univ i), hrest, Tree.set_self]
  omega

end RadixTree
