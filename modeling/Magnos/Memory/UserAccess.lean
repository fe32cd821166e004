import Magnos.Memory.PageMap

/-!
# What ring 3 can reach

`paging_init` maps the first 16 MB to itself for the kernel alone.  The mapping loop of
`elf_load_and_exec` maps pages of the first 4 MB again, with `PAGE_USER`, and sets that flag in
the directory entry they share; the table entries of the other pages keep ring 3 out.
-/

namespace Magnos

variable {Pages : Type} {m : Paging} {pages : Pages}

/-- The processor lets ring 3 use the address: both entries are present and have
`PAGE_USER`. -/
def UserAccessible (m : Paging) (virt : Nat) : Prop :=
  m.entry m.directory (pdIndex virt) &&& pageUser ≠ 0 ∧
    tableEntry m virt &&& pagePresent ≠ 0 ∧ tableEntry m virt &&& pageUser ≠ 0

/-- The state after `n` launches. -/
def afterLaunches (src : PageSource Pages) (n : Nat) (state : Paging × Pages) : Paging × Pages :=
  (fun s => mapUserPages src s.1 s.2)^[n] state

/-- The first 16 MB are mapped to themselves, the pages of `opened` for ring 3 too. -/
structure IdentityMap (src : PageSource Pages) (opened : Set Nat) (state : Paging × Pages) :
    Prop where
  inv : PagingInv src state
  low : ∀ virt < 2 ^ 24, tableEntry state.1 virt &&& pagePresent ≠ 0 ∧
    pageFrame (tableEntry state.1 virt) = virt / pageSize * pageSize ∧
    (tableEntry state.1 virt &&& pageUser ≠ 0 ↔ virt / pageSize ∈ opened)
  high : ∀ virt, 2 ^ 24 ≤ virt → virt < 2 ^ 32 → tableEntry state.1 virt = 0
  directory : ∀ i, state.1.entry state.1.directory i &&& pageUser ≠ 0 ↔ i = 0 ∧ opened.Nonempty

theorem identityEntry_eq (virt : Nat) (hvirt : virt < 2 ^ 32) :
    identityEntry (pdIndex virt) (ptIndex virt) = virt / pageSize * pageSize ||| 3 := by
  have hpage : pdIndex virt * 1024 + ptIndex virt = virt / pageSize := by
    rw [pdIndex_eq, ptIndex_eq, pageSize]
    omega
  rw [identityEntry, hpage, Nat.or_assoc]
  rfl

theorem pagingInit_identityMap (src : PageSource Pages) (boot : Paging) (start : Pages)
    (halloc : AllocsSucceed src 5 start) : IdentityMap src ∅ (pagingInit src boot start) := by
  have hinit := pagingInit_map src boot start halloc
  have hentry : ∀ virt < 2 ^ 32, tableEntry (pagingInit src boot start).1 virt =
      if virt < 2 ^ 24 then virt / pageSize * pageSize ||| 3 else 0 := by
    intro virt hvirt
    have hindex : ptIndex virt < 1024 := by
      rw [ptIndex_eq]
      exact Nat.mod_lt _ (by decide)
    have hlow : pdIndex virt < 4 ↔ virt < 2 ^ 24 := by
      rw [pdIndex_eq]
      omega
    rw [tableEntry, hinit.entries _ _ hindex, identityEntry_eq virt hvirt]
    simp only [hlow]
  refine ⟨hinit.inv, ?_, ?_, ?_⟩
  · intro virt hvirt
    have haddr : virt / pageSize * pageSize < 2 ^ 32 := by
      simp only [pageSize]
      omega
    rw [hentry virt (by omega), if_pos hvirt, pageFrame_or _ 3 haddr (by decide),
      and_flag _ _ pagePresent (by decide), and_flag _ _ pageUser (by decide)]
    exact ⟨by decide, rfl, fun h => absurd rfl h, fun h => h.elim⟩
  · intro virt hge hlt
    rw [hentry virt hlt, if_neg (by omega)]
  · intro i
    rw [hinit.directory, hinit.supervisor]
    simp

/-- A page of the first 4 MB is mapped to itself for ring 3. -/
theorem IdentityMap.mapUser {src : PageSource Pages} {opened : Set Nat}
    (hinv : IdentityMap src opened (m, pages)) (page : Nat) (hpage : page < 1024) :
    IdentityMap src (insert page opened)
      (pagingMap src m pages (page * pageSize) (page * pageSize) userFlags) := by
  have haddr : page * pageSize < 2 ^ 22 := by
    simp only [pageSize]
    omega
  have hpd : pdIndex (page * pageSize) = 0 := by
    rw [pdIndex_eq]
    omega
  have hdiv : page * pageSize / pageSize = page := Nat.mul_div_cancel page (by decide)
  have hpresent : m.entry m.directory (pdIndex (page * pageSize)) &&& pagePresent ≠ 0 := by
    have hlow := (hinv.low (page * pageSize) (by omega)).1
    intro hzero
    rw [tableEntry, tableAt, if_pos hzero] at hlow
    exact hlow (Nat.zero_and _)
  have heq : pagingMap src m pages (page * pageSize) (page * pageSize) userFlags =
      (mapEntry m (page * pageSize) (page * pageSize) userFlags, pages) := by
    rw [pagingMap, if_neg hpresent]
  obtain ⟨hmap, hdir, hat, hpde⟩ :=
    mapEntry_tableAt hinv.inv (page * pageSize) (page * pageSize) userFlags hpresent
  obtain ⟨hentry, -⟩ := pageMap_update (by omega) hat
  obtain ⟨hframe, hflag, huser⟩ := mapped_entry (page * pageSize) userFlags (by omega)
  rw [hdiv] at hentry hframe
  rw [heq]
  refine ⟨hmap, ?_, ?_, ?_⟩
  · intro virt hvirt
    rw [hentry virt (by omega), Set.mem_insert_iff]
    by_cases hsame : virt / pageSize = page
    · rw [if_pos hsame, mappedEntry, hframe, huser, hsame]
      exact ⟨hflag, rfl, fun _ => .inl rfl, fun _ => by decide⟩
    · rw [if_neg hsame]
      obtain ⟨hp, hf, hu⟩ := hinv.low virt hvirt
      exact ⟨hp, hf, hu.trans ⟨.inr, fun h => h.resolve_left hsame⟩⟩
  · intro virt hge hlt
    have hother : virt / pageSize ≠ page := by
      simp only [pageSize]
      omega
    rw [hentry virt hlt, if_neg hother]
    exact hinv.high virt hge hlt
  · intro i
    have hsome : (insert page opened).Nonempty := ⟨page, Set.mem_insert page opened⟩
    rw [hdir, hpde, hpd]
    by_cases hi : i = 0
    · rw [if_pos ⟨hi, by decide⟩, Nat.and_or_distrib_right]
      refine ⟨fun _ => ⟨hi, hsome⟩, ?_⟩
      intro _ hzero
      exact absurd (Nat.or_eq_zero_iff.mp hzero).2 (by decide)
    · rw [if_neg fun h => hi h.1]
      have hold := hinv.directory i
      exact ⟨fun h => (hi (hold.mp h).1).elim, fun h => (hi h.1).elim⟩

/-- The pages of a program and of its stack. -/
def userPages : Set Nat := {page | 0x200 ≤ page ∧ page < 0x301}

theorem IdentityMap.mapUserRegion {src : PageSource Pages} {opened : Set Nat} (n : Nat)
    (hn : n ≤ 0x100) (hinv : IdentityMap src opened (m, pages)) :
    IdentityMap src (opened ∪ {page | 0x200 ≤ page ∧ page < 0x200 + n})
      ((List.range n).foldl (mapUserPage src) (m, pages)) := by
  induction n with
  | zero =>
      have hnone : opened ∪ {page | 0x200 ≤ page ∧ page < 0x200 + 0} = opened := by
        ext page
        simp only [Set.mem_union, Set.mem_ofPred_eq]
        exact ⟨fun h => h.elim id fun h => by omega, .inl⟩
      rw [hnone]
      exact hinv
  | succ n ih =>
      have hone : opened ∪ {page | 0x200 ≤ page ∧ page < 0x200 + (n + 1)} =
          insert (0x200 + n) (opened ∪ {page | 0x200 ≤ page ∧ page < 0x200 + n}) := by
        ext page
        simp only [Set.mem_union, Set.mem_ofPred_eq, Set.mem_insert_iff]
        by_cases hpage : page ∈ opened
        · simp only [hpage, true_or, or_true]
        · simp only [hpage, false_or]
          omega
      have haddr : 0x200000 + n * pageSize = (0x200 + n) * pageSize := by
        simp only [pageSize]
        omega
      rw [List.range_succ, List.foldl_append, List.foldl_cons, List.foldl_nil, mapUserPage, haddr,
        hone]
      exact (ih (by omega)).mapUser (0x200 + n) (by omega)

theorem IdentityMap.launch {src : PageSource Pages} {opened : Set Nat} {state : Paging × Pages}
    (hinv : IdentityMap src opened state) :
    IdentityMap src (opened ∪ userPages) (mapUserPages src state.1 state.2) := by
  have hregion := IdentityMap.mapUserRegion userPageCount userPageCount_eq.le hinv
  have hlast := hregion.mapUser 0x300 (by decide)
  have hall : insert 0x300 (opened ∪ {page | 0x200 ≤ page ∧ page < 0x200 + userPageCount}) =
      opened ∪ userPages := by
    ext page
    simp only [Set.mem_union, Set.mem_ofPred_eq, Set.mem_insert_iff, userPages, userPageCount_eq]
    by_cases hpage : page ∈ opened
    · simp only [hpage, true_or, or_true]
    · simp only [hpage, false_or]
      omega
  rw [hall] at hlast
  exact hlast

theorem IdentityMap.afterLaunches {src : PageSource Pages} {state : Paging × Pages}
    (hinv : IdentityMap src ∅ state) (n : Nat) :
    IdentityMap src {page | 0 < n ∧ page ∈ userPages} (afterLaunches src n state) := by
  induction n with
  | zero =>
      have hnone : {page | 0 < 0 ∧ page ∈ userPages} = ∅ := by simp
      rw [hnone]
      exact hinv
  | succ n ih =>
      have hall : {page | 0 < n + 1 ∧ page ∈ userPages} =
          {page | 0 < n ∧ page ∈ userPages} ∪ userPages := by
        ext page
        simp only [Set.mem_union, Set.mem_ofPred_eq, Nat.succ_pos, true_and]
        exact ⟨.inr, fun h => h.elim (fun h => h.2) id⟩
      rw [Magnos.afterLaunches, Function.iterate_succ_apply', hall]
      exact ih.launch

/-- After boot and any number of launches exactly the first 16 MB are mapped, to themselves,
and ring 3 can use exactly the pages of programs and their stack, once there was a launch. -/
theorem launches_userAccessible (src : PageSource Pages) (boot : Paging) (start : Pages)
    (halloc : AllocsSucceed src 5 start) (n : Nat) (virt : UInt32) :
    let m := (afterLaunches src n (pagingInit src boot start)).1
    (tableEntry m virt.toNat &&& pagePresent ≠ 0 ↔ virt.toNat < 16 * 1024 * 1024) ∧
      (virt.toNat < 16 * 1024 * 1024 → pagingGetPhys m virt.toNat = virt.toNat) ∧
      (UserAccessible m virt.toNat ↔ 0 < n ∧ 0x200000 ≤ virt.toNat ∧ virt.toNat < 0x301000) := by
  intro m
  have hlt := virt.toNat_lt
  have hinv := (pagingInit_identityMap src boot start halloc).afterLaunches n
  have hpages : virt.toNat / pageSize ∈ userPages ↔
      0x200000 ≤ virt.toNat ∧ virt.toNat < 0x301000 := by
    simp only [userPages, Set.mem_ofPred_eq, pageSize]
    omega
  by_cases hlow : virt.toNat < 2 ^ 24
  · obtain ⟨hpresent, hframe, huser⟩ := hinv.low virt.toNat hlow
    refine ⟨⟨fun _ => hlow, fun _ => hpresent⟩, ?_, ?_⟩
    · intro _
      have hoffset : virt.toNat &&& 0xFFF = virt.toNat % 4096 :=
        Nat.and_two_pow_sub_one_eq_mod virt.toNat 12
      have hor : virt.toNat / pageSize * pageSize ||| virt.toNat % 4096 =
          virt.toNat / pageSize * pageSize + virt.toNat % 4096 :=
        Framework.or_low 12 _ _ (Nat.mod_lt _ (by decide))
      rw [pagingGetPhys_eq, if_neg hpresent, hframe, hoffset, hor, pageSize]
      omega
    · constructor
      · rintro ⟨-, -, hu⟩
        obtain ⟨hn, hpage⟩ := huser.mp hu
        exact ⟨hn, hpages.mp hpage⟩
      · rintro ⟨hn, hrange⟩
        have hpage := hpages.mpr hrange
        have hpd : pdIndex virt.toNat = 0 := by
          rw [pdIndex_eq]
          omega
        exact ⟨(hinv.directory _).mpr ⟨hpd, _, hn, hpage⟩, hpresent, huser.mpr ⟨hn, hpage⟩⟩
  · have hzero := hinv.high virt.toNat (by omega) hlt
    have hnone : ¬ tableEntry m virt.toNat &&& pagePresent ≠ 0 := by
      rw [hzero, Nat.zero_and]
      exact fun h => h rfl
    refine ⟨⟨fun h => (hnone h).elim, fun h => (hlow h).elim⟩, fun h => (hlow h).elim, ?_⟩
    constructor
    · rintro ⟨-, hp, -⟩
      exact (hnone hp).elim
    · rintro ⟨-, -, h⟩
      omega

/-- After one launch the program's stack is open and the page above it is not. -/
theorem launches_userAccessible_stack :
    AllocsSucceed pmmSource 5 (pmmInit 0x100000) ∧
      UserAccessible (afterLaunches pmmSource 1
        (pagingInit pmmSource ⟨0, fun _ _ => 0⟩ (pmmInit 0x100000))).1 (0x300FFF : UInt32).toNat ∧
      ¬ UserAccessible (afterLaunches pmmSource 1
        (pagingInit pmmSource ⟨0, fun _ _ => 0⟩ (pmmInit 0x100000))).1 (0x301000 : UInt32).toNat := by
  have halloc := allocsSucceed_pmmInit 5 0x100000 (by decide) (by decide) (by decide)
  have hinside := (launches_userAccessible pmmSource ⟨0, fun _ _ => 0⟩ _ halloc 1 0x300FFF).2.2
  have houtside := (launches_userAccessible pmmSource ⟨0, fun _ _ => 0⟩ _ halloc 1 0x301000).2.2
  refine ⟨halloc, hinside.mpr (by decide), ?_⟩
  intro haccess
  exact absurd (houtside.mp haccess) (by decide)

end Magnos
