import Ukulele.PmmPages

/-! Adding a range: it is cut into blocks, and each block takes an inactive entry. -/

set_option autoImplicit false

namespace Ukulele

theorem pmmCtrlInitialise_spec (mem : Memory) {ctrl : Physical} (ha : Aligned ctrl)
    {pages : BitVec 16} (hp : pages.toNat ≤ 32767) :
    ∃ blk, pmmCtrlInitialise mem ctrl pages = .ok (Function.update mem ctrl blk) ∧
      Bitset.members blk = Finset.range pages.toNat := by
  have hfull : ¬ 512 < pages.toNat / 64 := by omega
  by_cases he : pages.toNat % 64 = 0
  · refine ⟨fun i => if i.val < pages.toNat / 64 then BitVec.allOnes 64 else 0#64, ?_, ?_⟩
    · simp only [pmmCtrlInitialise, requirePageAligned_ok ha, hfull, he, if_true, if_false,
        bind, Except.bind, pure, Except.pure]
    apply Bitset.members_prefix _ _ (by omega)
    intro i b hb
    by_cases hi : i.val < pages.toNat / 64
    · simp only [hi, if_true, BitVec.getLsbD_allOnes, hb, decide_true, true_iff]
      omega
    · simp only [hi, if_false, BitVec.getLsbD_zero, Bool.false_eq_true, false_iff]
      omega
  · let j : Fin 512 := ⟨pages.toNat / 64, by omega⟩
    have hj : entryIndex ((pages.toNat / 64 : Nat) : Int) = .ok j := entryIndex_ok rfl
    refine ⟨Function.update
      (fun i => if i.val < pages.toNat / 64 then BitVec.allOnes 64 else 0#64) j
      (BitVec.allOnes 64 >>> (64 - pages.toNat % 64)), ?_, ?_⟩
    · simp only [pmmCtrlInitialise, requirePageAligned_ok ha, hfull, he, hj, if_false,
        bind, Except.bind, pure, Except.pure]
    apply Bitset.members_prefix _ _ (by omega)
    intro i b hb
    by_cases hij : i = j
    · subst i
      have hjv : j.val = pages.toNat / 64 := rfl
      simp only [Function.update_self, BitVec.getLsbD_ushiftRight, BitVec.getLsbD_allOnes,
        decide_eq_true_eq, hjv]
      omega
    · have hne : i.val ≠ pages.toNat / 64 := fun h => hij (Fin.ext h)
      rw [Function.update_of_ne hij]
      by_cases hi : i.val < pages.toNat / 64
      · simp only [hi, if_true, BitVec.getLsbD_allOnes, hb, decide_true, true_iff]
        omega
      · simp only [hi, if_false, BitVec.getLsbD_zero, Bool.false_eq_true, false_iff]
        omega

/-- No block of the state meets the bytes from `lo` up to `hi`. -/
def Outside (s : Machine) (lo hi : Nat) : Prop :=
  ∀ i, (s.pmm.entry i).active = true →
    (s.pmm.entry i).blockEnd ≤ lo ∨ hi ≤ (s.pmm.entry i).ctrl.toNat

/-- What an addition of the bytes from `lo` up to `hi` may do. -/
structure Added (s : Machine) (lo hi : Nat) (s' : Machine) : Prop where
  ok : PmmOk s'
  kept : ∀ i, (s.pmm.entry i).active = true → s'.pmm.entry i = s.pmm.entry i ∧
    s'.mem (s.pmm.entry i).ctrl = s.mem (s.pmm.entry i).ctrl
  fresh : ∀ i, (s'.pmm.entry i).active = true → (s.pmm.entry i).active = false →
    lo ≤ (s'.pmm.entry i).ctrl.toNat ∧ (s'.pmm.entry i).blockEnd ≤ hi ∧
      Bitset.members (s'.mem (s'.pmm.entry i).ctrl) =
        Finset.range (s'.pmm.entry i).maxPages.toNat
  mem_eq : ∀ q : Physical, q.toNat < lo ∨ hi ≤ q.toNat → s'.mem q = s.mem q
  cr3_eq : s'.cr3 = s.cr3

theorem Added.refl {s : Machine} (h : PmmOk s) (lo hi : Nat) : Added s lo hi s where
  ok := h
  kept := fun _ _ => ⟨rfl, rfl⟩
  fresh := by
    intro i hi hn
    rw [hn] at hi
    contradiction
  mem_eq := fun _ _ => rfl
  cr3_eq := rfl

theorem Added.trans {s t u : Machine} {lo mid hi : Nat} (hlm : lo ≤ mid) (hmh : mid ≤ hi)
    (h₁ : Added s lo mid t) (h₂ : Added t mid hi u) : Added s lo hi u := by
  refine ⟨h₂.ok, ?_, ?_, ?_, h₂.cr3_eq.trans h₁.cr3_eq⟩
  · intro i hi
    obtain ⟨he, hm⟩ := h₁.kept i hi
    have h := h₂.kept i (by rw [he]; exact hi)
    rw [he] at h
    exact ⟨h.1, h.2.trans hm⟩
  · intro i hi hn
    cases ht : (t.pmm.entry i).active with
    | false =>
      obtain ⟨hlo, hrest⟩ := h₂.fresh i hi ht
      exact ⟨by omega, hrest⟩
    | true =>
      obtain ⟨he, hm⟩ := h₂.kept i ht
      rw [he, hm]
      obtain ⟨hlo, hhi, hbits⟩ := h₁.fresh i ht hn
      exact ⟨hlo, by omega, hbits⟩
  · intro q hq
    rw [h₂.mem_eq q (by omega), h₁.mem_eq q (by omega)]

theorem Added.mono {s t : Machine} {lo hi hi' : Nat} (h : Added s lo hi t) (hle : hi ≤ hi') :
    Added s lo hi' t where
  ok := h.ok
  kept := h.kept
  fresh := by
    intro i hi hn
    obtain ⟨hlo, hhi, hbits⟩ := h.fresh i hi hn
    exact ⟨hlo, by omega, hbits⟩
  mem_eq := fun q hq => h.mem_eq q (by omega)
  cr3_eq := h.cr3_eq

theorem Added.of_entry {s : Machine} (h : PmmOk s) {i : Fin 168}
    (hi : (s.pmm.entry i).active = false) {p : PmmCtrlPtr} {blk : RawPage}
    (hblock : BlockOk p blk) (hbits : Bitset.members blk = Finset.range p.maxPages.toNat)
    (hout : Outside s p.ctrl.toNat p.blockEnd) :
    Added s p.ctrl.toNat p.blockEnd { s with
      mem := Function.update s.mem p.ctrl blk, pmm := ⟨Function.update s.pmm.entry i p⟩ } := by
  have hne : ∀ j, (s.pmm.entry j).active = true → j ≠ i := by
    rintro j hj rfl
    rw [hi] at hj
    contradiction
  have hlt : p.ctrl.toNat < p.blockEnd := by
    unfold PmmCtrlPtr.blockEnd
    omega
  have hctrl : ∀ j, (s.pmm.entry j).active = true → (s.pmm.entry j).ctrl ≠ p.ctrl := by
    intro j hj he
    have ho := hout j hj
    rw [PmmCtrlPtr.blockEnd, he] at ho
    omega
  have hother : ∀ j, j ≠ i → (Function.update s.pmm.entry i p) j = s.pmm.entry j :=
    fun j hj => Function.update_of_ne hj ..
  refine ⟨⟨?_, ?_⟩, ?_, ?_, ?_, rfl⟩
  · intro j hj
    by_cases hji : j = i
    · subst j
      simpa using hblock
    · simp only [hother j hji] at hj ⊢
      rw [Function.update_of_ne (hctrl j hj)]
      exact h.block j hj
  · intro j l hjl hj hl
    by_cases hji : j = i
    · subst j
      have hli : l ≠ i := fun he => hjl he.symm
      simp only [Function.update_self, hother l hli] at hl ⊢
      exact (hout l hl).symm
    · simp only [hother j hji] at hj ⊢
      by_cases hli : l = i
      · subst l
        simp only [Function.update_self]
        exact hout j hj
      · simp only [hother l hli] at hl ⊢
        exact h.apart j l hjl hj hl
  · intro j hj
    exact ⟨hother j (hne j hj), Function.update_of_ne (hctrl j hj) ..⟩
  · intro j hj hn
    by_cases hji : j = i
    · subst j
      simp [hbits]
    · simp only [hother j hji, hn] at hj
      contradiction
  · intro q hq
    apply Function.update_of_ne
    rintro rfl
    omega

theorem pmmSetupEntry_spec {s : Machine} (h : PmmOk s) {i : Fin 168}
    (hi : (s.pmm.entry i).active = false) {start : Physical} (ha : Aligned start) {size : Size}
    (hmod : size.toNat % 4096 = 0) (hmin : 4096 ≤ size.toNat) (hmax : size.toNat ≤ 134217728)
    (hfit : start.toNat + size.toNat ≤ 2 ^ 64)
    (hout : Outside s start.toNat (start.toNat + size.toNat)) :
    ∃ s', pmmSetupEntry s i start size = .ok s' ∧
      (s'.pmm.entry i).active = true ∧
      Added s start.toNat (start.toNat + size.toNat) s' := by
  have hs : pageSize.toNat = 4096 := by decide
  have hpages : (((size - pageSize) / pageSize).setWidth 16).toNat = size.toNat / 4096 - 1 := by
    rw [BitVec.toNat_setWidth, BitVec.toNat_udiv, hs, BitVec.toNat_sub_of_le, hs]
    · omega
    · rw [BitVec.le_def, hs]
      exact hmin
  have hle : (((size - pageSize) / pageSize).setWidth 16).toNat ≤ 32767 := by omega
  obtain ⟨blk, hblk, hbits⟩ := pmmCtrlInitialise_spec s.mem ha hle
  let p : PmmCtrlPtr := ⟨start + pageSize, start, ((size - pageSize) / pageSize).setWidth 16,
    ((size - pageSize) / pageSize).setWidth 16, true⟩
  have hend : p.blockEnd = start.toNat + size.toNat := by
    simp only [PmmCtrlPtr.blockEnd, p, hpages]
    omega
  have hblock : BlockOk p blk := by
    refine ⟨rfl, ha, by simp only [p, hpages]; omega, by omega, ?_, ?_⟩
    · intro k hk
      rw [hbits] at hk
      exact Finset.mem_range.mp hk
    · rw [hbits, Finset.card_range]
  have hadded := Added.of_entry h hi hblock hbits (by rw [hend]; exact hout)
  rw [hend] at hadded
  refine ⟨_, ?_, ?_, hadded⟩
  · simp only [pmmSetupEntry, hblk, bind, Except.bind, pure, Except.pure]
    rfl
  · simp [p]

theorem inactiveEntry_some {pmm : Pmm} {i : Fin 168} (h : inactiveEntry pmm = some i) :
    (pmm.entry i).active = false := by
  have hf := List.find?_some h
  simpa using hf

theorem Outside.mono {s : Machine} {lo lo' hi hi' : Nat} (h : Outside s lo hi)
    (hl : lo ≤ lo') (hh : hi' ≤ hi) : Outside s lo' hi' := by
  intro i hi
  rcases h i hi with h | h
  · exact Or.inl (by omega)
  · exact Or.inr (by omega)

theorem Added.outside {s t : Machine} {lo mid hi : Nat} (h : Added s lo mid t)
    (ho : Outside s lo hi) (hlm : lo ≤ mid) : Outside t mid hi := by
  intro i ha
  cases hs : (s.pmm.entry i).active with
  | true =>
    rw [(h.kept i hs).1]
    rcases ho i hs with hl | hl
    · exact Or.inl (by omega)
    · exact Or.inr hl
  | false => exact Or.inl (h.fresh i ha hs).2.1

theorem toNat_maxBlockSizeBytes : maxBlockSizeBytes.toNat = 134217728 := by decide

theorem splitBlock_pages {size : Size} {n : Nat} (h : size.toNat = 4096 * n) :
    (splitBlock size).1.toNat = 4096 * min 32768 n ∧
      (splitBlock size).2.toNat = 4096 * (n - 32768) := by
  have hm := toNat_maxBlockSizeBytes
  unfold splitBlock
  split
  · rename_i hlt
    have hl := BitVec.lt_def.mp hlt
    dsimp only
    rw [BitVec.toNat_sub_of_le (BitVec.le_of_lt hlt)]
    omega
  · rename_i hlt
    have hl := BitVec.not_lt.mp hlt
    rw [BitVec.le_def, hm] at hl
    simp only [BitVec.toNat_ofNat]
    omega

/-- A call of `pmm_add` on `n` pages ends at once, fills the first inactive entry with all of
them, or with 32768 of them and goes on behind them. -/
theorem pmmAdd_cases {s : Machine} {start : Physical} {size : Size} {n : Nat}
    (hn : size.toNat / 4096 = n) (ha : Aligned start)
    (hwrap : start.toNat + size.toNat ≤ 2 ^ 64) :
    ((n < 64 ∨ inactiveEntry s.pmm = none) ∧ pmmAdd s start size = .ok s) ∨
    ∃ i first, inactiveEntry s.pmm = some i ∧ 64 ≤ n ∧ first.toNat = 4096 * min 32768 n ∧
      ((n ≤ 32768 ∧ pmmAdd s start size = pmmSetupEntry s i start first) ∨
        ∃ rest, 32768 < n ∧ rest.toNat = 4096 * (n - 32768) ∧ Aligned (start + first) ∧
          (start + first).toNat = start.toNat + first.toNat ∧
          pmmAdd s start size =
            pmmSetupEntry s i start first >>= fun t => pmmAdd t (start + first) rest) := by
  have hround : (roundDown size pageSize).toNat = 4096 * n := by
    rw [toNat_roundDown, hn, Nat.mul_comm]
  obtain ⟨hfirst, hremains⟩ := splitBlock_pages hround
  have hmin : minBlockSizeBytes.toNat = 262144 := by decide
  rw [pmmAdd]
  simp only [requirePageAligned_ok ha, BitVec.lt_def, hmin, hround]
  by_cases hsmall : n < 64
  · have hlt : 4096 * n < 262144 := by omega
    left
    simp only [hlt, if_true]
    exact ⟨Or.inl hsmall, trivial⟩
  have hnlt : ¬ 4096 * n < 262144 := by omega
  simp only [hnlt, if_false]
  cases hi : inactiveEntry s.pmm with
  | none => exact Or.inl ⟨Or.inr rfl, rfl⟩
  | some i =>
    right
    refine ⟨i, (splitBlock (roundDown size pageSize)).1, rfl, by omega, hfirst, ?_⟩
    by_cases hz : (splitBlock (roundDown size pageSize)).2 = 0#64
    · left
      rw [hz] at hremains
      simp only [BitVec.toNat_ofNat] at hremains
      simp only [hz, ne_eq, not_true_eq_false, dite_false]
      refine ⟨by omega, ?_⟩
      cases pmmSetupEntry s i start (splitBlock (roundDown size pageSize)).1 with
      | ok t => rfl
      | error e => rfl
    · right
      have hpos : (splitBlock (roundDown size pageSize)).2.toNat ≠ 0 :=
        fun he => hz (BitVec.eq_of_toNat_eq (by simpa using he))
      have hnext : (start + (splitBlock (roundDown size pageSize)).1).toNat =
          start.toNat + (splitBlock (roundDown size pageSize)).1.toNat := by
        rw [BitVec.toNat_add]
        omega
      have halign : Aligned (start + (splitBlock (roundDown size pageSize)).1) := by
        simp only [Aligned, hnext] at ha ⊢
        omega
      simp only [hz, ne_eq, not_false_eq_true, dite_true]
      refine ⟨_, by omega, hremains, halign, hnext, ?_⟩
      cases pmmSetupEntry s i start (splitBlock (roundDown size pageSize)).1 with
      | ok t => rfl
      | error e => rfl

theorem pmmAdd_spec {s : Machine} {start : Physical} {size : Size} (h : PmmOk s)
    (ha : Aligned start) (hfit : start.toNat + size.toNat ≤ 2 ^ 64)
    (hout : Outside s start.toNat (start.toNat + size.toNat)) :
    ∃ s', pmmAdd s start size = .ok s' ∧
      Added s start.toNat (start.toNat + size.toNat) s' := by
  induction hn : size.toNat using Nat.strong_induction_on generalizing s start size with
  | _ bytes ih =>
    subst hn
    rcases @pmmAdd_cases s start size _ rfl ha hfit with ⟨-, hend⟩ | ⟨i, first, hi, hn, hfirst, hrun⟩
    · exact ⟨s, hend, Added.refl h _ _⟩
    obtain ⟨t, ht, -, hadd⟩ := pmmSetupEntry_spec h (inactiveEntry_some hi) ha
      (by omega : first.toNat % 4096 = 0) (by omega) (by omega) (by omega)
      (hout.mono (Nat.le_refl _) (by omega))
    rcases hrun with ⟨hle, hrun⟩ | ⟨rest, hgt, hrest, halign, hnext, hrun⟩
    · exact ⟨t, hrun.trans ht, hadd.mono (by omega)⟩
    · have hbehind : Outside t _ (start.toNat + size.toNat) := hadd.outside hout (by omega)
      obtain ⟨u, hu, hmore⟩ := ih rest.toNat (by omega) hadd.ok halign (by omega)
        (hbehind.mono (by omega) (by omega)) rfl
      rw [ht] at hrun
      rw [hnext] at hmore
      exact ⟨u, hrun.trans hu, (hadd.trans (by omega) (by omega) hmore).mono (by omega)⟩

end Ukulele
