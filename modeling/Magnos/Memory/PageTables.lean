import Magnos.Memory.Paging
import Magnos.Memory.PmmLog

/-!
# Invariants of the page tables

The directory and the tables it points to are pages of the kernel's own, and every entry
that ring 3 may use maps a frame of a given set.  `paging_map` keeps both as long as its
caller opens only frames of that set.
-/

namespace Magnos

open Framework

variable {Pages : Type}

/-- `Owned` are the pages the kernel took for itself, `Open` the frames it may show to
ring 3. -/
structure TableInv (Owned Open : Nat → Prop) (m : Paging) : Prop where
  directory : Owned m.directory
  tables : ∀ i, m.entry m.directory i = 0 ∨
    ∃ pt, IsTableEntry (m.entry m.directory i) pt ∧ Owned pt ∧ pt ≠ m.directory
  user : ∀ i pt, IsTableEntry (m.entry m.directory i) pt → ∀ j,
    m.entry pt j &&& pagePresent ≠ 0 → m.entry pt j &&& pageUser ≠ 0 → Open (pageFrame (m.entry pt j))

variable {Owned Owned' Open : Nat → Prop} {m : Paging}

theorem Paging.setEntry_entry (m : Paging) (page i value p j : Nat) :
    (m.setEntry page i value).entry p j =
      if p = page ∧ j = i then value else m.entry p j := by
  simp only [Paging.setEntry, Function.update_apply]
  grind

theorem Paging.zeroPage_entry (m : Paging) (page p j : Nat) :
    (m.zeroPage page).entry p j = if p = page then 0 else m.entry p j := by
  simp only [Paging.zeroPage, Function.update_apply]
  split <;> rfl

@[simp]
theorem Paging.setEntry_directory (m : Paging) (page i value : Nat) :
    (m.setEntry page i value).directory = m.directory := rfl

@[simp]
theorem Paging.zeroPage_directory (m : Paging) (page : Nat) :
    (m.zeroPage page).directory = m.directory := rfl

theorem isTableEntry_ne_zero {pde pt : Nat} (hentry : IsTableEntry pde pt) : pde ≠ 0 := by
  rintro rfl
  exact hentry.present (Nat.zero_and _)

namespace TableInv

theorem mono (hinv : TableInv Owned Open m) (hmono : ∀ p, Owned p → Owned' p) :
    TableInv Owned' Open m := by
  refine ⟨hmono _ hinv.directory, ?_, hinv.user⟩
  intro i
  rcases hinv.tables i with hzero | ⟨pt, hentry, howned, hne⟩
  · exact .inl hzero
  · exact .inr ⟨pt, hentry, hmono _ howned, hne⟩

theorem open_of_userMapped (hinv : TableInv Owned Open m) (frame : Nat)
    (hmapped : UserMapped m frame) : Open frame := by
  obtain ⟨i, -, j, -, hpresent, -, hpte, huser, rfl⟩ := hmapped
  rcases hinv.tables i with hzero | ⟨pt, hentry, -, -⟩
  · exact (hpresent (by rw [hzero, Nat.zero_and])).elim
  · rw [hentry.pageFrame] at hpte huser ⊢
    exact hinv.user i pt hentry j hpte huser

theorem table_of_present (hinv : TableInv Owned Open m) (i : Nat)
    (hpresent : m.entry m.directory i &&& pagePresent ≠ 0) :
    ∃ pt, IsTableEntry (m.entry m.directory i) pt ∧ Owned pt ∧ pt ≠ m.directory := by
  rcases hinv.tables i with hzero | htable
  · exact (hpresent (by rw [hzero, Nat.zero_and])).elim
  · exact htable

theorem setDirectory (hinv : TableInv Owned Open m) (i value pt : Nat)
    (hentry : IsTableEntry value pt) (howned : Owned pt) (hne : pt ≠ m.directory)
    (huser : ∀ j, m.entry pt j &&& pagePresent ≠ 0 → m.entry pt j &&& pageUser ≠ 0 →
      Open (pageFrame (m.entry pt j))) :
    TableInv Owned Open (m.setEntry m.directory i value) := by
  refine ⟨hinv.directory, ?_, ?_⟩
  · intro k
    simp only [Paging.setEntry_directory, Paging.setEntry_entry, true_and]
    by_cases hk : k = i
    · rw [if_pos hk]
      exact .inr ⟨pt, hentry, howned, hne⟩
    · rw [if_neg hk]
      exact hinv.tables k
  · intro k p hkp j
    simp only [Paging.setEntry_directory, Paging.setEntry_entry, true_and] at hkp ⊢
    by_cases hk : k = i
    · rw [if_pos hk] at hkp
      obtain rfl : pt = p := hentry.pageFrame.symm.trans hkp.pageFrame
      rw [if_neg fun hboth => hne hboth.1]
      exact huser j
    · rw [if_neg hk] at hkp
      rcases hinv.tables k with hzero | ⟨p', hentry', -, hne'⟩
      · exact (isTableEntry_ne_zero hkp hzero).elim
      · obtain rfl : p' = p := hentry'.pageFrame.symm.trans hkp.pageFrame
        rw [if_neg fun hboth => hne' hboth.1]
        exact hinv.user k p' hkp j

theorem setTable (hinv : TableInv Owned Open m) (pt j value : Nat) (hne : pt ≠ m.directory)
    (huser : value &&& pageUser ≠ 0 → Open (pageFrame value)) :
    TableInv Owned Open (m.setEntry pt j value) := by
  have hdir : ∀ i, (m.setEntry pt j value).entry m.directory i = m.entry m.directory i := by
    intro i
    rw [Paging.setEntry_entry, if_neg fun hboth => hne hboth.1.symm]
  refine ⟨hinv.directory, ?_, ?_⟩
  · intro i
    rw [Paging.setEntry_directory, hdir]
    exact hinv.tables i
  · intro i p hentry k
    rw [Paging.setEntry_directory, hdir] at hentry
    rw [Paging.setEntry_entry]
    split
    · exact fun _ hval => huser hval
    · exact hinv.user i p hentry k

theorem zeroPage (hinv : TableInv Owned Open m) (pt : Nat) (hne : pt ≠ m.directory) :
    TableInv Owned Open (m.zeroPage pt) := by
  have hdir : ∀ i, (m.zeroPage pt).entry m.directory i = m.entry m.directory i := by
    intro i
    rw [Paging.zeroPage_entry, if_neg hne.symm]
  refine ⟨hinv.directory, ?_, ?_⟩
  · intro i
    rw [Paging.zeroPage_directory, hdir]
    exact hinv.tables i
  · intro i p hentry k
    rw [Paging.zeroPage_directory, hdir] at hentry
    rw [Paging.zeroPage_entry]
    split
    · simp
    · exact hinv.user i p hentry k

end TableInv

theorem mapEntry_spec (hinv : TableInv Owned Open m) (virt phys flags : Nat)
    (hphys : phys < 2 ^ 32) (hpresent : m.entry m.directory (pdIndex virt) &&& pagePresent ≠ 0)
    (hopen : flags &&& pageUser ≠ 0 → Open (phys / pageSize * pageSize)) :
    TableInv Owned Open (mapEntry m virt phys flags) ∧
      (∀ i, m.entry m.directory i &&& pagePresent ≠ 0 →
        (mapEntry m virt phys flags).entry m.directory i &&& pagePresent ≠ 0) ∧
      (mapEntry m virt phys flags).directory = m.directory ∧
      (flags &&& pageUser ≠ 0 →
        UserMapped (mapEntry m virt phys flags) (phys / pageSize * pageSize)) := by
  obtain ⟨pt, hentry, howned, hne⟩ := hinv.table_of_present _ hpresent
  obtain ⟨hframe, hpte, huser⟩ := mapped_entry phys flags hphys
  have hvalue : (phys &&& 0xFFFFF000 ||| flags &&& 0xFFF ||| pagePresent) &&& pageUser ≠ 0 →
      Open (pageFrame (phys &&& 0xFFFFF000 ||| flags &&& 0xFFF ||| pagePresent)) := by
    rw [huser, hframe]
    exact hopen
  have hpd : pdIndex virt < 1024 := Nat.and_lt_two_pow _ (n := 10) (by decide)
  have hpt : ptIndex virt < 1024 := Nat.and_lt_two_pow _ (n := 10) (by decide)
  by_cases hflag : flags &&& pageUser = 0
  · have heq : mapEntry m virt phys flags = m.setEntry pt (ptIndex virt)
        (phys &&& 0xFFFFF000 ||| flags &&& 0xFFF ||| pagePresent) := by
      simp only [mapEntry, hflag, ne_eq, not_true_eq_false, if_false, hentry.pageFrame]
    rw [heq]
    refine ⟨hinv.setTable pt _ _ hne hvalue, ?_, rfl, fun hset => (hset hflag).elim⟩
    intro i hi
    rwa [Paging.setEntry_entry, if_neg fun hboth => hne hboth.1.symm]
  · obtain ⟨hentry', huser'⟩ := hentry.or_user
    set m₁ := m.setEntry m.directory (pdIndex virt)
      (m.entry m.directory (pdIndex virt) ||| pageUser) with hm₁
    have hinv₁ : TableInv Owned Open m₁ :=
      hinv.setDirectory _ _ pt hentry' howned hne (hinv.user _ pt hentry)
    have hpde : m₁.entry m.directory (pdIndex virt) =
        m.entry m.directory (pdIndex virt) ||| pageUser := by
      rw [hm₁, Paging.setEntry_entry, if_pos ⟨rfl, rfl⟩]
    have heq : mapEntry m virt phys flags = m₁.setEntry pt (ptIndex virt)
        (phys &&& 0xFFFFF000 ||| flags &&& 0xFFF ||| pagePresent) := by
      simp only [mapEntry, ne_eq, hflag, not_false_eq_true, if_true, ← hm₁]
      rw [show m₁.directory = m.directory from rfl, hpde, hentry'.pageFrame]
    have hdir : ∀ i, (m₁.setEntry pt (ptIndex virt)
        (phys &&& 0xFFFFF000 ||| flags &&& 0xFFF ||| pagePresent)).entry m.directory i =
        m₁.entry m.directory i := by
      intro i
      rw [Paging.setEntry_entry, if_neg fun hboth => hne hboth.1.symm]
    rw [heq]
    refine ⟨hinv₁.setTable pt _ _ hne hvalue, ?_, rfl, ?_⟩
    · intro i hi
      rw [hdir]
      by_cases hi' : i = pdIndex virt
      · rw [hi', hpde]
        exact hentry'.present
      · rwa [hm₁, Paging.setEntry_entry, if_neg fun hboth => hi' hboth.2]
    · intro _
      refine ⟨pdIndex virt, hpd, ptIndex virt, hpt, ?_⟩
      simp only [Paging.setEntry_directory, show m₁.directory = m.directory from rfl, hdir, hpde,
        hentry'.pageFrame]
      rw [Paging.setEntry_entry, if_pos ⟨rfl, rfl⟩, huser, hframe]
      exact ⟨hentry'.present, huser', hpte, hflag, rfl⟩

/-- The tables of a running kernel, over the pages it has taken. -/
structure KernelTables (start : Bitmap) (Open : Nat → Prop) (m : Paging) (s : PmmLog) : Prop where
  log : PmmLogInv start s
  tables : TableInv (· ∈ s.2) Open m
  low : m.entry m.directory 0 &&& pagePresent ≠ 0

section Mapping

variable {start : Bitmap} {s : PmmLog}

theorem KernelTables.alloc (hinv : KernelTables start Open m s) :
    KernelTables start Open m (kernelPages.alloc s).2 :=
  ⟨hinv.log.alloc, hinv.tables.mono (kernelPages_keeps s), hinv.low⟩

theorem KernelTables.pagingMap (hinv : KernelTables start Open m s) (virt phys flags : Nat)
    (hphys : phys < 2 ^ 32) (hopen : flags &&& pageUser ≠ 0 → Open (phys / pageSize * pageSize)) :
    KernelTables start Open (pagingMap kernelPages m s virt phys flags).1
      (pagingMap kernelPages m s virt phys flags).2 := by
  unfold Magnos.pagingMap
  by_cases hpresent : m.entry m.directory (pdIndex virt) &&& pagePresent = 0
  · rw [if_pos hpresent]
    dsimp only
    by_cases hzero : (kernelPages.alloc s).1 = 0
    · rw [if_pos hzero]
      exact hinv.alloc
    · rw [if_neg hzero]
      have havail := kernelPages.alloc_available s hzero
      have hfresh := hinv.log.fresh hzero
      have hnew := kernelPages_records s hzero
      have hne : (kernelPages.alloc s).1 ≠ m.directory := by
        intro heq
        exact hfresh (heq ▸ hinv.tables.directory)
      have hentry := isTableEntry_fresh _ (kernelPages.aligned s _ havail)
        (kernelPages.bounded s _ havail)
      have hinv₁ : TableInv (· ∈ (kernelPages.alloc s).2.2) Open
          ((m.zeroPage (kernelPages.alloc s).1).setEntry m.directory (pdIndex virt)
            ((kernelPages.alloc s).1 ||| pagePresent ||| pageWritable)) := by
        apply (hinv.alloc.tables.zeroPage _ hne).setDirectory _ _ _ hentry hnew hne
        intro j hj
        rw [Paging.zeroPage_entry, if_pos rfl, Nat.zero_and] at hj
        exact (hj rfl).elim
      have hpresent₁ : ((m.zeroPage (kernelPages.alloc s).1).setEntry m.directory (pdIndex virt)
          ((kernelPages.alloc s).1 ||| pagePresent ||| pageWritable)).entry m.directory
            (pdIndex virt) &&& pagePresent ≠ 0 := by
        rw [Paging.setEntry_entry, if_pos ⟨rfl, rfl⟩]
        exact hentry.present
      have hlow₁ : ((m.zeroPage (kernelPages.alloc s).1).setEntry m.directory (pdIndex virt)
          ((kernelPages.alloc s).1 ||| pagePresent ||| pageWritable)).entry m.directory 0 &&&
            pagePresent ≠ 0 := by
        rw [Paging.setEntry_entry]
        split
        · exact hentry.present
        · rw [Paging.zeroPage_entry, if_neg hne.symm]
          exact hinv.low
      obtain ⟨htables, hkeeps, hdir, -⟩ := mapEntry_spec hinv₁ virt phys flags hphys hpresent₁ hopen
      refine ⟨hinv.alloc.log, htables, ?_⟩
      rw [hdir]
      exact hkeeps 0 hlow₁
  · rw [if_neg hpresent]
    obtain ⟨htables, hkeeps, hdir, -⟩ := mapEntry_spec hinv.tables virt phys flags hphys hpresent hopen
    refine ⟨hinv.log, htables, ?_⟩
    rw [hdir]
    exact hkeeps 0 hinv.low

theorem KernelTables.mapUserRegion (is : List Nat) (his : ∀ i ∈ is, i < 0x100)
    (hregion : ∀ i < 0x100, Open (0x200000 + i * pageSize)) (state : Paging × PmmLog)
    (hinv : KernelTables start Open state.1 state.2) :
    KernelTables start Open (is.foldl (mapUserPage kernelPages) state).1
      (is.foldl (mapUserPage kernelPages) state).2 := by
  induction is generalizing state with
  | nil => exact hinv
  | cons i is ih =>
      have hi := his i (by simp)
      have hopen := hregion i hi
      have hpage : 0x200000 + i * pageSize = (0x200 + i) * pageSize := by
        rw [Nat.add_mul]
        rfl
      rw [List.foldl_cons]
      apply ih (fun k hk => his k (by simp [hk]))
      apply hinv.pagingMap
      · simp only [pageSize]
        omega
      · intro _
        rw [hpage] at hopen ⊢
        rwa [Nat.mul_div_cancel _ (by decide)]

theorem KernelTables.mapUserPages (hinv : KernelTables start Open m s)
    (hregion : ∀ i < 0x100, Open (0x200000 + i * pageSize)) (hstack : Open 0x300000) :
    KernelTables start Open (mapUserPages kernelPages m s).1 (mapUserPages kernelPages m s).2 ∧
      UserMapped (Magnos.mapUserPages kernelPages m s).1 0x300000 := by
  have hinv' := KernelTables.mapUserRegion (List.range userPageCount)
    (fun i hi => userPageCount_eq ▸ List.mem_range.mp hi) hregion (m, s) hinv
  unfold Magnos.mapUserPages
  dsimp only
  generalize (List.range userPageCount).foldl (mapUserPage kernelPages) (m, s) = region at hinv' ⊢
  refine ⟨hinv'.pagingMap _ _ _ (by decide) (fun _ => hstack), ?_⟩
  have hpresent : region.1.entry region.1.directory (pdIndex 0x300000) &&& pagePresent ≠ 0 :=
    hinv'.low
  rw [Magnos.pagingMap, if_neg hpresent]
  exact (mapEntry_spec hinv'.tables 0x300000 0x300000 userFlags (by decide) hpresent
    (fun _ => hstack)).2.2.2 (by decide)

theorem fillTable_spec (hinv : TableInv Owned Open m) (pt i : Nat) (hne : pt ≠ m.directory)
    (hclosed : ∀ j, m.entry pt j &&& pageUser = 0) :
    TableInv Owned Open (fillTable m pt i) ∧ (fillTable m pt i).directory = m.directory ∧
      (∀ k, (fillTable m pt i).entry m.directory k = m.entry m.directory k) ∧
      ∀ j, (fillTable m pt i).entry pt j &&& pageUser = 0 := by
  have hvalue : ∀ j, ((i * 1024 + j) * pageSize ||| pagePresent ||| pageWritable) &&& pageUser = 0 := by
    intro j
    rw [Nat.or_assoc, and_flag _ _ _ (by decide)]
    decide
  unfold fillTable
  generalize List.range 1024 = js
  induction js generalizing m with
  | nil => exact ⟨hinv, rfl, fun _ => rfl, hclosed⟩
  | cons j js ih =>
      rw [List.foldl_cons]
      obtain ⟨hinv', hdir, hkeep, hclosed'⟩ :=
        ih (hinv.setTable pt j _ hne fun hset => (hset (hvalue j)).elim) hne (by
          intro k
          rw [Paging.setEntry_entry]
          split
          · exact hvalue j
          · exact hclosed k)
      refine ⟨hinv', hdir, ?_, hclosed'⟩
      intro k
      have hsame := hkeep k
      rwa [Paging.setEntry_directory, Paging.setEntry_entry,
        if_neg fun hboth => hne hboth.1.symm] at hsame

/-- The state of `paging_init` after `requests` calls of `pmm_alloc` since boot. -/
structure InitTables (kernelEnd requests dir : Nat) (Open : Nat → Prop)
    (state : Paging × PmmLog) : Prop where
  pages : EarlyPages kernelEnd requests state.2
  tables : TableInv (· ∈ state.2.2) Open state.1
  directory : state.1.directory = dir

theorem InitTables.initTable {kernelEnd requests dir : Nat} {state : Paging × PmmLog}
    (hinv : InitTables kernelEnd requests dir Open state) (i : Nat) (hpos : 0 < requests)
    (hfew : requests ≤ 3000) :
    InitTables kernelEnd (requests + 1) dir Open (initTable kernelPages dir state i) ∧
      (initTable kernelPages dir state i).1.entry dir i &&& pagePresent ≠ 0 ∧
      ∀ k, state.1.entry dir k &&& pagePresent ≠ 0 →
        (initTable kernelPages dir state i).1.entry dir k &&& pagePresent ≠ 0 := by
  obtain ⟨m, s⟩ := state
  have hzero := hinv.pages.alloc_ne_zero hpos hfew
  have havail := kernelPages.alloc_available s hzero
  have hfresh := hinv.pages.log.fresh hzero
  have hnew := kernelPages_records s hzero
  have hdir : m.directory = dir := hinv.directory
  have hne : (kernelPages.alloc s).1 ≠ m.directory := by
    intro heq
    exact hfresh (heq ▸ hinv.tables.directory)
  have hentry := isTableEntry_fresh _ (kernelPages.aligned s _ havail) (kernelPages.bounded s _ havail)
  have hcleared := (hinv.tables.mono (kernelPages_keeps s)).zeroPage _ hne
  obtain ⟨hfilled, hfdir, hfkeep, hclosed⟩ := fillTable_spec hcleared (kernelPages.alloc s).1 i hne
    (fun j => by rw [Paging.zeroPage_entry, if_pos rfl, Nat.zero_and])
  rw [Paging.zeroPage_directory] at hfdir hfkeep
  subst hdir
  have hset := hfilled.setDirectory i _ _ hentry hnew (by rwa [hfdir])
    (fun j _ huser => (huser (hclosed j)).elim)
  rw [hfdir] at hset
  rw [Magnos.initTable]
  refine ⟨⟨hinv.pages.alloc, hset, (Paging.setEntry_directory _ _ _ _).trans hfdir⟩, ?_, ?_⟩
  · rw [Paging.setEntry_entry, if_pos ⟨rfl, rfl⟩]
    exact hentry.present
  · intro k hk
    rw [Paging.setEntry_entry]
    split
    · exact hentry.present
    · rw [hfkeep, Paging.zeroPage_entry, if_neg hne.symm]
      exact hk

theorem InitTables.loop {kernelEnd requests dir : Nat} {state : Paging × PmmLog} (is : List Nat)
    (hinv : InitTables kernelEnd requests dir Open state) (hpos : 0 < requests)
    (hfew : requests + is.length ≤ 3000) :
    InitTables kernelEnd (requests + is.length) dir Open
        (is.foldl (Magnos.initTable kernelPages dir) state) ∧
      ∀ k, k ∈ is ∨ state.1.entry dir k &&& pagePresent ≠ 0 →
        (is.foldl (Magnos.initTable kernelPages dir) state).1.entry dir k &&& pagePresent ≠ 0 := by
  induction is generalizing requests state with
  | nil => exact ⟨hinv, fun k hk => by simpa using hk⟩
  | cons i is ih =>
      rw [List.length_cons] at hfew
      obtain ⟨hinv', hset, hkeep⟩ := hinv.initTable i hpos (by omega)
      obtain ⟨hfinal, hpresent⟩ := ih hinv' (by omega) (by omega)
      rw [List.foldl_cons, List.length_cons]
      refine ⟨?_, ?_⟩
      · rwa [Nat.add_right_comm, Nat.add_assoc] at hfinal
      · intro k hk
        apply hpresent
        rcases hk with hk | hk
        · rcases List.mem_cons.mp hk with rfl | hk
          · exact .inr hset
          · exact .inl hk
        · exact .inr (hkeep k hk)

/-- `paging_init` after a boot that has made few requests. -/
theorem pagingInit_tables {kernelEnd requests : Nat} (Open : Nat → Prop) (m : Paging)
    (hpages : EarlyPages kernelEnd requests s) (hpos : 0 < requests) (hfew : requests ≤ 2000) :
    KernelTables (pmmInit kernelEnd) Open (pagingInit kernelPages m s).1
      (pagingInit kernelPages m s).2 := by
  have hzero := hpages.alloc_ne_zero hpos (by omega)
  have hstart : InitTables kernelEnd (requests + 1) (kernelPages.alloc s).1 Open
      ({ m with directory := (kernelPages.alloc s).1 }.zeroPage (kernelPages.alloc s).1,
        (kernelPages.alloc s).2) := by
    refine ⟨hpages.alloc, ⟨kernelPages_records s hzero, ?_, ?_⟩, rfl⟩
    · intro i
      left
      rw [Paging.zeroPage_directory, Paging.zeroPage_entry, if_pos rfl]
    · intro i pt hentry
      rw [Paging.zeroPage_directory, Paging.zeroPage_entry, if_pos rfl] at hentry
      exact (isTableEntry_ne_zero hentry rfl).elim
  have hlen : (List.range identityMapEntries).length = 4 := List.length_range
  obtain ⟨hfinal, hpresent⟩ := hstart.loop (List.range identityMapEntries) (by omega)
    (by rw [hlen]; omega)
  have hlow := hpresent 0 (.inl (List.mem_range.mpr (by decide)))
  unfold pagingInit
  dsimp only
  generalize (List.range identityMapEntries).foldl (Magnos.initTable kernelPages _) _ = final
    at hfinal hlow ⊢
  rw [← hfinal.directory] at hlow
  exact ⟨hfinal.pages.log, hfinal.tables, hlow⟩

end Mapping

end Magnos
