import Magnos.Memory.FreePages
import Magnos.Memory.PageTables

/-!
# The page tables as a map

Directory and tables together are a map from virtual pages to frames and flags.  It is a map
because no two directory entries share a table and none points to the directory; a page that
`pmm_alloc` returns is none of the pages in use, so that linking it in keeps this.
-/

namespace Magnos

open Framework

variable {Pages : Type} {Used Used' : Nat → Prop} {m m' : Paging}

/-- The table entry with directory index `i` and table index `j`, 0 where there is no table. -/
def tableAt (m : Paging) (i j : Nat) : Nat :=
  if m.entry m.directory i &&& pagePresent = 0 then 0
  else m.entry (pageFrame (m.entry m.directory i)) j

/-- The table entry of a virtual address. -/
def tableEntry (m : Paging) (virt : Nat) : Nat := tableAt m (pdIndex virt) (ptIndex virt)

theorem tableAt_of_table {i pt : Nat} (hentry : IsTableEntry (m.entry m.directory i) pt) (j : Nat) :
    tableAt m i j = m.entry pt j := by
  rw [tableAt, if_neg hentry.present, hentry.pageFrame]

theorem tableAt_of_zero {i : Nat} (hzero : m.entry m.directory i = 0) (j : Nat) :
    tableAt m i j = 0 := by
  rw [tableAt, hzero, if_pos (Nat.zero_and _)]

/-- `Used` are the pages that `pmm_alloc` does not return any more. -/
structure TableMap (Used : Nat → Prop) (m : Paging) : Prop where
  base : TableInv Used (fun _ => True) m
  apart : ∀ i j pt, IsTableEntry (m.entry m.directory i) pt →
    IsTableEntry (m.entry m.directory j) pt → i = j

namespace TableMap

/-- A page that was not in use becomes the table of entry `i`. -/
theorem link (hinv : TableMap Used m) {i pt pde : Nat} (hfresh : ¬ Used pt)
    (hmono : ∀ p, Used p → Used' p) (hused : Used' pt) (hentry : IsTableEntry pde pt)
    (hdir : m'.directory = m.directory) (hsame : ∀ p, p ≠ pt → m'.entry p = m.entry p) :
    TableMap Used' (m'.setEntry m.directory i pde) ∧
      ∀ k j, tableAt (m'.setEntry m.directory i pde) k j =
        if k = i then m'.entry pt j else tableAt m k j := by
  have hne : m.directory ≠ pt := fun h => hfresh (h ▸ hinv.base.directory)
  have hpde : ∀ k, (m'.setEntry m.directory i pde).entry m.directory k =
      if k = i then pde else m.entry m.directory k := by
    intro k
    rw [Paging.setEntry_entry, hsame _ hne]
    simp only [true_and]
  have hold : ∀ k pt', IsTableEntry (m.entry m.directory k) pt' → pt' ≠ pt ∧ pt' ≠ m.directory := by
    intro k pt' hk
    rcases hinv.base.tables k with hzero | ⟨pt'', hentry'', hused'', hne''⟩
    · exact (isTableEntry_ne_zero hk hzero).elim
    · obtain rfl : pt'' = pt' := hentry''.pageFrame.symm.trans hk.pageFrame
      exact ⟨fun h => hfresh (h ▸ hused''), hne''⟩
  refine ⟨⟨⟨?_, ?_, fun _ _ _ _ _ _ => trivial⟩, ?_⟩, ?_⟩
  · rw [Paging.setEntry_directory, hdir]
    exact hmono _ hinv.base.directory
  · intro k
    rw [Paging.setEntry_directory, hdir, hpde]
    by_cases hk : k = i
    · rw [if_pos hk]
      exact .inr ⟨pt, hentry, hused, hne.symm⟩
    · rw [if_neg hk]
      rcases hinv.base.tables k with hzero | ⟨pt', hentry', hused', hne'⟩
      · exact .inl hzero
      · exact .inr ⟨pt', hentry', hmono _ hused', hne'⟩
  · intro k l pt' hk hl
    rw [Paging.setEntry_directory, hdir, hpde] at hk hl
    by_cases hki : k = i <;> by_cases hli : l = i
    · rw [hki, hli]
    · rw [if_pos hki] at hk
      rw [if_neg hli] at hl
      obtain rfl := hentry.pageFrame.symm.trans hk.pageFrame
      exact ((hold l _ hl).1 rfl).elim
    · rw [if_neg hki] at hk
      rw [if_pos hli] at hl
      obtain rfl := hentry.pageFrame.symm.trans hl.pageFrame
      exact ((hold k _ hk).1 rfl).elim
    · rw [if_neg hki] at hk
      rw [if_neg hli] at hl
      exact hinv.apart k l pt' hk hl
  · intro k j
    have hdir' : (m'.setEntry m.directory i pde).directory = m.directory := hdir
    by_cases hk : k = i
    · rw [if_pos hk]
      have hentry' : IsTableEntry ((m'.setEntry m.directory i pde).entry
          (m'.setEntry m.directory i pde).directory k) pt := by
        rwa [hdir', hpde, if_pos hk]
      rw [tableAt_of_table hentry', Paging.setEntry_entry, if_neg fun h => hne h.1.symm]
    · rw [if_neg hk]
      rcases hinv.base.tables k with hzero | ⟨pt', hentry', -, -⟩
      · rw [tableAt_of_zero hzero, tableAt_of_zero]
        rw [hdir', hpde, if_neg hk, hzero]
      · obtain ⟨hpt, hptdir⟩ := hold k pt' hentry'
        have hentry'' : IsTableEntry ((m'.setEntry m.directory i pde).entry
            (m'.setEntry m.directory i pde).directory k) pt' := by
          rwa [hdir', hpde, if_neg hk]
        rw [tableAt_of_table hentry', tableAt_of_table hentry'', Paging.setEntry_entry,
          if_neg fun h => hptdir h.1, hsame _ hpt]

theorem setFlags (hinv : TableMap Used m) {i pt pde : Nat}
    (hold : IsTableEntry (m.entry m.directory i) pt) (hnew : IsTableEntry pde pt) :
    TableMap Used (m.setEntry m.directory i pde) ∧
      ∀ k j, tableAt (m.setEntry m.directory i pde) k j = tableAt m k j := by
  obtain ⟨pt', hentry, hused, hne⟩ := hinv.base.table_of_present i hold.present
  obtain rfl : pt' = pt := hentry.pageFrame.symm.trans hold.pageFrame
  have hpde : ∀ k, (m.setEntry m.directory i pde).entry m.directory k =
      if k = i then pde else m.entry m.directory k := by
    intro k
    rw [Paging.setEntry_entry]
    simp only [true_and]
  have hback : ∀ k q, IsTableEntry ((m.setEntry m.directory i pde).entry m.directory k) q →
      IsTableEntry (m.entry m.directory k) q := by
    intro k q hk
    rw [hpde] at hk
    by_cases hki : k = i
    · rw [if_pos hki] at hk
      obtain rfl := hnew.pageFrame.symm.trans hk.pageFrame
      rwa [hki]
    · rwa [if_neg hki] at hk
  refine ⟨⟨hinv.base.setDirectory i pde _ hnew hused hne fun _ _ _ => trivial, ?_⟩, ?_⟩
  · intro k l q hk hl
    exact hinv.apart k l q (hback k q hk) (hback l q hl)
  · intro k j
    rcases hinv.base.tables k with hzero | ⟨q, hq, -, hqdir⟩
    · have hki : k ≠ i := by
        rintro rfl
        exact isTableEntry_ne_zero hold hzero
      rw [tableAt_of_zero hzero, tableAt_of_zero]
      rw [Paging.setEntry_directory, hpde, if_neg hki, hzero]
    · have hq' : IsTableEntry ((m.setEntry m.directory i pde).entry
          (m.setEntry m.directory i pde).directory k) q := by
        rw [Paging.setEntry_directory, hpde]
        by_cases hki : k = i
        · rw [hki] at hq
          obtain rfl := hq.pageFrame.symm.trans hold.pageFrame
          rwa [if_pos hki]
        · rwa [if_neg hki]
      rw [tableAt_of_table hq, tableAt_of_table hq', Paging.setEntry_entry,
        if_neg fun h => hqdir h.1]

theorem setEntry (hinv : TableMap Used m) {i pt : Nat}
    (hentry : IsTableEntry (m.entry m.directory i) pt) (j value : Nat) :
    TableMap Used (m.setEntry pt j value) ∧
      (∀ k, (m.setEntry pt j value).entry m.directory k = m.entry m.directory k) ∧
      ∀ k l, tableAt (m.setEntry pt j value) k l =
        if k = i ∧ l = j then value else tableAt m k l := by
  obtain ⟨pt', hentry', -, hne⟩ := hinv.base.table_of_present i hentry.present
  obtain rfl : pt' = pt := hentry'.pageFrame.symm.trans hentry.pageFrame
  have hdir : ∀ k, (m.setEntry pt' j value).entry m.directory k = m.entry m.directory k := by
    intro k
    rw [Paging.setEntry_entry, if_neg fun h => hne h.1.symm]
  refine ⟨⟨hinv.base.setTable _ j value hne fun _ => trivial, ?_⟩, hdir, ?_⟩
  · intro k l q hk hl
    rw [Paging.setEntry_directory, hdir] at hk hl
    exact hinv.apart k l q hk hl
  · intro k l
    rcases hinv.base.tables k with hzero | ⟨q, hq, -, -⟩
    · have hki : k ≠ i := by
        rintro rfl
        exact isTableEntry_ne_zero hentry hzero
      rw [if_neg fun h => hki h.1, tableAt_of_zero hzero, tableAt_of_zero]
      rw [Paging.setEntry_directory, hdir, hzero]
    · have hq' : IsTableEntry ((m.setEntry pt' j value).entry
          (m.setEntry pt' j value).directory k) q := by
        rwa [Paging.setEntry_directory, hdir]
      have hsame : q = pt' ↔ k = i := by
        constructor
        · rintro rfl
          exact hinv.apart k i q hq hentry
        · rintro rfl
          exact hq.pageFrame.symm.trans hentry.pageFrame
      rw [tableAt_of_table hq', tableAt_of_table hq, Paging.setEntry_entry]
      simp only [hsame]

end TableMap

/-- The table entry that `paging_map` writes. -/
def mappedEntry (phys flags : Nat) : Nat :=
  phys &&& 0xFFFFF000 ||| flags &&& 0xFFF ||| pagePresent

theorem mapEntry_tableAt (hinv : TableMap Used m) (virt phys flags : Nat)
    (hpresent : m.entry m.directory (pdIndex virt) &&& pagePresent ≠ 0) :
    TableMap Used (mapEntry m virt phys flags) ∧
      (mapEntry m virt phys flags).directory = m.directory ∧
      (∀ i j, tableAt (mapEntry m virt phys flags) i j =
        if i = pdIndex virt ∧ j = ptIndex virt then mappedEntry phys flags else tableAt m i j) ∧
      ∀ i, (mapEntry m virt phys flags).entry m.directory i =
        if i = pdIndex virt ∧ flags &&& pageUser ≠ 0 then m.entry m.directory i ||| pageUser
        else m.entry m.directory i := by
  obtain ⟨pt, hentry, -, -⟩ := hinv.base.table_of_present _ hpresent
  by_cases hflag : flags &&& pageUser = 0
  · have heq : mapEntry m virt phys flags =
        m.setEntry pt (ptIndex virt) (mappedEntry phys flags) := by
      simp only [mapEntry, hflag, ne_eq, not_true_eq_false, if_false, hentry.pageFrame, mappedEntry]
    obtain ⟨hmap, hdir, hat⟩ := hinv.setEntry hentry (ptIndex virt) (mappedEntry phys flags)
    rw [heq]
    refine ⟨hmap, rfl, hat, ?_⟩
    intro i
    rw [hdir, if_neg fun h => h.2 hflag]
  · obtain ⟨hentry', -⟩ := hentry.or_user
    obtain ⟨hmap, hat⟩ := hinv.setFlags hentry hentry'
    have hpde : ∀ i, (m.setEntry m.directory (pdIndex virt)
        (m.entry m.directory (pdIndex virt) ||| pageUser)).entry m.directory i =
        if i = pdIndex virt then m.entry m.directory i ||| pageUser
        else m.entry m.directory i := by
      intro i
      rw [Paging.setEntry_entry]
      by_cases hi : i = pdIndex virt
      · rw [if_pos ⟨rfl, hi⟩, if_pos hi, hi]
      · rw [if_neg fun h => hi h.2, if_neg hi]
    have hentry'' : IsTableEntry ((m.setEntry m.directory (pdIndex virt)
        (m.entry m.directory (pdIndex virt) ||| pageUser)).entry (m.setEntry m.directory
          (pdIndex virt) (m.entry m.directory (pdIndex virt) ||| pageUser)).directory
            (pdIndex virt)) pt := by
      rwa [Paging.setEntry_directory, hpde, if_pos rfl]
    obtain ⟨hmap', hdir', hat'⟩ :=
      hmap.setEntry hentry'' (ptIndex virt) (mappedEntry phys flags)
    have heq : mapEntry m virt phys flags = (m.setEntry m.directory (pdIndex virt)
        (m.entry m.directory (pdIndex virt) ||| pageUser)).setEntry pt (ptIndex virt)
          (mappedEntry phys flags) := by
      simp only [mapEntry, ne_eq, hflag, not_false_eq_true, if_true, hentry''.pageFrame, mappedEntry]
    rw [Paging.setEntry_directory] at hdir'
    rw [heq]
    refine ⟨hmap', rfl, ?_, ?_⟩
    · intro i j
      rw [hat', hat]
    · intro i
      rw [hdir', hpde]
      by_cases hi : i = pdIndex virt
      · rw [if_pos hi, if_pos ⟨hi, hflag⟩]
      · rw [if_neg hi, if_neg fun h => hi h.1]

/-- `paging_map` needs a table and `pmm_alloc` has no page for it. -/
def OutOfPages (src : PageSource Pages) (m : Paging) (pages : Pages) (virt : Nat) : Prop :=
  m.entry m.directory (pdIndex virt) &&& pagePresent = 0 ∧ (src.alloc pages).1 = 0

/-- The tables of a kernel that takes its pages from `src`. -/
def PagingInv (src : PageSource Pages) (state : Paging × Pages) : Prop :=
  TableMap (fun p => ¬ src.Available state.2 p) state.1

theorem pagingMap_failed (src : PageSource Pages) (pages : Pages) (virt phys flags : Nat)
    (hout : OutOfPages src m pages virt) : (pagingMap src m pages virt phys flags).1 = m := by
  rw [pagingMap, if_pos hout.1]
  dsimp only
  rw [if_pos hout.2]

theorem PagingInv.alloc {src : PageSource Pages} {pages : Pages} (hinv : PagingInv src (m, pages)) :
    PagingInv src (m, (src.alloc pages).2) :=
  ⟨hinv.base.mono fun p hp havail => hp (src.alloc_shrinks pages p havail), hinv.apart⟩

theorem pagingMap_tableAt {src : PageSource Pages} {pages : Pages}
    (hinv : PagingInv src (m, pages)) (virt phys flags : Nat) :
    PagingInv src (pagingMap src m pages virt phys flags) ∧
      (¬ OutOfPages src m pages virt → ∀ i j,
        tableAt (pagingMap src m pages virt phys flags).1 i j =
          if i = pdIndex virt ∧ j = ptIndex virt then mappedEntry phys flags else tableAt m i j) := by
  by_cases hpresent : m.entry m.directory (pdIndex virt) &&& pagePresent = 0
  · by_cases hzero : (src.alloc pages).1 = 0
    · have heq : pagingMap src m pages virt phys flags = (m, (src.alloc pages).2) := by
        rw [pagingMap, if_pos hpresent]
        dsimp only
        rw [if_pos hzero]
      rw [heq]
      exact ⟨hinv.alloc, fun hroom => (hroom ⟨hpresent, hzero⟩).elim⟩
    · have havail := src.alloc_available pages hzero
      have hentry := isTableEntry_fresh _ (src.aligned pages _ havail) (src.bounded pages _ havail)
      set pt := (src.alloc pages).1 with hpt
      have hmono : ∀ p, ¬ src.Available pages p → ¬ src.Available (src.alloc pages).2 p :=
        fun p hp havail => hp (src.alloc_shrinks pages p havail)
      have hsame : ∀ p, p ≠ pt → (m.zeroPage pt).entry p = m.entry p := by
        intro p hp
        funext j
        rw [Paging.zeroPage_entry, if_neg hp]
      obtain ⟨hlinked, hlinkedAt⟩ := TableMap.link (i := pdIndex virt) hinv (not_not_intro havail)
        hmono (src.alloc_taken pages hzero) hentry (Paging.zeroPage_directory m pt) hsame
      have heq : pagingMap src m pages virt phys flags =
          (mapEntry ((m.zeroPage pt).setEntry m.directory (pdIndex virt)
            (pt ||| pagePresent ||| pageWritable)) virt phys flags, (src.alloc pages).2) := by
        rw [pagingMap, if_pos hpresent]
        dsimp only
        rw [if_neg hzero]
      have hpresent' : ((m.zeroPage pt).setEntry m.directory (pdIndex virt)
          (pt ||| pagePresent ||| pageWritable)).entry ((m.zeroPage pt).setEntry m.directory
            (pdIndex virt) (pt ||| pagePresent ||| pageWritable)).directory (pdIndex virt) &&&
              pagePresent ≠ 0 := by
        rw [Paging.setEntry_directory, Paging.zeroPage_directory, Paging.setEntry_entry,
          if_pos ⟨rfl, rfl⟩]
        exact hentry.present
      obtain ⟨hmap, -, hat, -⟩ := mapEntry_tableAt hlinked virt phys flags hpresent'
      rw [heq]
      refine ⟨hmap, ?_⟩
      intro _ i j
      rw [hat, hlinkedAt]
      by_cases hi : i = pdIndex virt
      · rw [if_pos hi, Paging.zeroPage_entry, if_pos rfl]
        have hnone : tableAt m i j = 0 := by
          rw [tableAt, hi, if_pos hpresent]
        rw [hnone]
      · rw [if_neg hi]
  · have heq : pagingMap src m pages virt phys flags = (mapEntry m virt phys flags, pages) := by
      rw [pagingMap, if_neg hpresent]
    obtain ⟨hmap, -, hat, -⟩ := mapEntry_tableAt hinv virt phys flags hpresent
    rw [heq]
    exact ⟨hmap, fun _ => hat⟩

theorem pagingUnmap_tableAt (hinv : TableMap Used m) (virt : Nat) :
    TableMap Used (pagingUnmap m virt) ∧
      ∀ i j, tableAt (pagingUnmap m virt) i j =
        if i = pdIndex virt ∧ j = ptIndex virt then 0 else tableAt m i j := by
  by_cases hpresent : m.entry m.directory (pdIndex virt) &&& pagePresent = 0
  · rw [pagingUnmap, if_pos hpresent]
    refine ⟨hinv, ?_⟩
    intro i j
    split
    · next h => rw [tableAt, h.1, if_pos hpresent]
    · rfl
  · obtain ⟨pt, hentry, -, -⟩ := hinv.base.table_of_present _ hpresent
    have heq : pagingUnmap m virt = m.setEntry pt (ptIndex virt) 0 := by
      rw [pagingUnmap, if_neg hpresent]
      dsimp only
      rw [hentry.pageFrame]
    obtain ⟨hmap, -, hat⟩ := hinv.setEntry hentry (ptIndex virt) 0
    rw [heq]
    exact ⟨hmap, hat⟩

/-- The first `n` calls of `pmm_alloc` return pages. -/
def AllocsSucceed (src : PageSource Pages) : Nat → Pages → Prop
  | 0, _ => True
  | n + 1, pages => (src.alloc pages).1 ≠ 0 ∧ AllocsSucceed src n (src.alloc pages).2

theorem allocsSucceed_pmm (n : Nat) (bitmap : Bitmap) (hzero : 0 ∉ freePages bitmap)
    (hcard : n ≤ (freePages bitmap).card) : AllocsSucceed pmmSource n bitmap := by
  induction n generalizing bitmap with
  | zero => trivial
  | succ n ih =>
      rcases pmmAlloc_pool bitmap hzero with ⟨p, hleast, hpos, hpage, hfree⟩ | ⟨hnone, -⟩
      · constructor
        · show (pmmAlloc bitmap).1 ≠ 0
          rw [hpage]
          simp only [pageSize]
          omega
        · apply ih
          · show 0 ∉ freePages (pmmAlloc bitmap).2
            rw [hfree]
            exact fun h => hzero (Finset.mem_of_mem_erase h)
          · show n ≤ (freePages (pmmAlloc bitmap).2).card
            rw [hfree, Finset.card_erase_of_mem hleast.1]
            omega
      · rw [hnone, Finset.card_empty] at hcard
        omega

theorem allocsSucceed_pmmInit (n kernelEnd : Nat) (hn : n ≤ 0xD00) (hlo : 0x1000 ≤ kernelEnd)
    (hhi : kernelEnd ≤ 0x1F0000) : AllocsSucceed pmmSource n (pmmInit kernelEnd) := by
  apply allocsSucceed_pmm n _ (zero_notMem_freePages_init kernelEnd hlo hhi)
  have hsome : Finset.Ico 0x300 (0x300 + n) ⊆ freePages (pmmInit kernelEnd) := by
    intro p hp
    rw [Finset.mem_Ico] at hp
    rw [mem_freePages, pageFree_pmmInit, totalPages_eq]
    omega
  have hcard := Finset.card_le_card hsome
  rwa [Nat.card_Ico, Nat.add_sub_cancel_left] at hcard

def identityEntry (i j : Nat) : Nat := (i * 1024 + j) * pageSize ||| pagePresent ||| pageWritable

theorem foldl_identityEntry (m : Paging) (pt i n : Nat) :
    let filled := (List.range n).foldl (fun m j => m.setEntry pt j (identityEntry i j)) m
    filled.directory = m.directory ∧
      ∀ p j, filled.entry p j = if p = pt ∧ j < n then identityEntry i j else m.entry p j := by
  induction n with
  | zero => exact ⟨rfl, fun p j => by simp⟩
  | succ n ih =>
      obtain ⟨hdir, hentry⟩ := ih
      dsimp only
      rw [List.range_succ, List.foldl_append, List.foldl_cons, List.foldl_nil]
      refine ⟨hdir, ?_⟩
      intro p j
      rw [Paging.setEntry_entry, hentry]
      by_cases hlast : p = pt ∧ j = n
      · rw [if_pos hlast, if_pos ⟨hlast.1, by omega⟩, hlast.2]
      · rw [if_neg hlast]
        have hiff : (p = pt ∧ j < n) ↔ (p = pt ∧ j < n + 1) := by
          constructor
          · exact fun h => ⟨h.1, by omega⟩
          · intro h
            have hne : j ≠ n := fun hj => hlast ⟨h.1, hj⟩
            exact ⟨h.1, by omega⟩
        simp only [hiff]

theorem fillTable_entry (m : Paging) (pt i : Nat) :
    (fillTable m pt i).directory = m.directory ∧
      ∀ p j, (fillTable m pt i).entry p j =
        if p = pt ∧ j < 1024 then identityEntry i j else m.entry p j := by
  have hfold := foldl_identityEntry m pt i 1024
  unfold identityEntry at hfold
  unfold fillTable identityEntry
  exact hfold

/-- The tables after `k` rounds of the loop of `paging_init`. -/
structure InitMap (src : PageSource Pages) (dir k : Nat) (state : Paging × Pages) : Prop where
  inv : PagingInv src state
  directory : state.1.directory = dir
  entries : ∀ i j, j < 1024 → tableAt state.1 i j = if i < k then identityEntry i j else 0
  supervisor : ∀ i, state.1.entry dir i &&& pageUser = 0

theorem InitMap.initTable {src : PageSource Pages} {dir k : Nat} {state : Paging × Pages}
    (hinv : InitMap src dir k state) (hzero : (src.alloc state.2).1 ≠ 0) :
    InitMap src dir (k + 1) (initTable src dir state k) := by
  obtain ⟨m, pages⟩ := state
  obtain ⟨hpages, hdir, hentries, hsuper⟩ := hinv
  dsimp only at hzero hdir hentries hsuper
  subst hdir
  have havail := src.alloc_available pages hzero
  have hentry := isTableEntry_fresh _ (src.aligned pages _ havail) (src.bounded pages _ havail)
  rw [Magnos.initTable]
  dsimp only
  set pt := (src.alloc pages).1 with hpt
  have hmono : ∀ p, ¬ src.Available pages p → ¬ src.Available (src.alloc pages).2 p :=
    fun p hp havail => hp (src.alloc_shrinks pages p havail)
  obtain ⟨hfilldir, hfill⟩ := fillTable_entry (m.zeroPage pt) pt k
  have hsame : ∀ p, p ≠ pt → (fillTable (m.zeroPage pt) pt k).entry p = m.entry p := by
    intro p hp
    funext j
    rw [hfill, if_neg fun h => hp h.1, Paging.zeroPage_entry, if_neg hp]
  have hdir : (fillTable (m.zeroPage pt) pt k).directory = m.directory :=
    hfilldir.trans (Paging.zeroPage_directory m pt)
  obtain ⟨hlinked, hat⟩ := TableMap.link (i := k) hpages (not_not_intro havail) hmono
    (src.alloc_taken pages hzero) hentry hdir hsame
  refine ⟨hlinked, (Paging.setEntry_directory _ _ _ _).trans hdir, ?_, ?_⟩
  · intro i j hj
    rw [hat, hfill]
    by_cases hik : i = k
    · rw [if_pos hik, if_pos ⟨rfl, hj⟩, if_pos (by omega), hik]
    · have hiff : i < k ↔ i < k + 1 := by omega
      rw [if_neg hik, hentries i j hj]
      simp only [hiff]
  · intro i
    have hne : m.directory ≠ pt := fun h => hpages.base.directory (h ▸ havail)
    rw [Paging.setEntry_entry]
    split
    · rw [Nat.or_assoc, Nat.and_or_distrib_right]
      have haligned := src.aligned pages _ havail
      have hmul : pt = pt / pageSize * pageSize := by
        simp only [pageSize] at haligned ⊢
        omega
      have hhigh : pt &&& pageUser = 0 := by
        have hand := and_flag (pt / pageSize) 0 pageUser (by decide)
        rw [Nat.or_zero, ← hmul, Nat.zero_and] at hand
        exact hand
      rw [hhigh]
      rfl
    · rw [hsame _ hne]
      exact hsuper i

theorem InitMap.loop {src : PageSource Pages} {dir : Nat} (n k : Nat) (state : Paging × Pages)
    (hinv : InitMap src dir k state) (halloc : AllocsSucceed src n state.2) :
    InitMap src dir (k + n) ((List.range' k n).foldl (Magnos.initTable src dir) state) := by
  induction n generalizing k state with
  | zero => exact hinv
  | succ n ih =>
      rw [List.range'_succ, List.foldl_cons, Nat.add_comm n 1, ← Nat.add_assoc]
      exact ih (k + 1) _ (hinv.initTable halloc.1) halloc.2

theorem pagingInit_map (src : PageSource Pages) (m : Paging) (pages : Pages)
    (halloc : AllocsSucceed src 5 pages) :
    InitMap src (src.alloc pages).1 4 (pagingInit src m pages) := by
  have hzero : ∀ j, ({ m with directory := (src.alloc pages).1 }.zeroPage
      (src.alloc pages).1).entry (src.alloc pages).1 j = 0 := by
    intro j
    rw [Paging.zeroPage_entry, if_pos rfl]
  have hstart : InitMap src (src.alloc pages).1 0
      ({ m with directory := (src.alloc pages).1 }.zeroPage (src.alloc pages).1,
        (src.alloc pages).2) := by
    refine ⟨⟨⟨src.alloc_taken pages halloc.1, fun i => .inl (hzero i), ?_⟩, ?_⟩, rfl, ?_, ?_⟩
    · intro i pt hentry
      exact (isTableEntry_ne_zero hentry (hzero i)).elim
    · intro i j pt hentry
      exact (isTableEntry_ne_zero hentry (hzero i)).elim
    · intro i j _
      rw [if_neg (Nat.not_lt_zero i)]
      exact tableAt_of_zero (hzero i) j
    · intro i
      rw [hzero, Nat.zero_and]
  rw [pagingInit, List.range_eq_range']
  exact hstart.loop 4 0 _ halloc.2

theorem pdIndex_eq (virt : Nat) : pdIndex virt = virt / 2 ^ 22 % 1024 := by
  rw [pdIndex, Nat.shiftRight_eq_div_pow]
  exact Nat.and_two_pow_sub_one_eq_mod _ 10

theorem ptIndex_eq (virt : Nat) : ptIndex virt = virt / 2 ^ 12 % 1024 := by
  rw [ptIndex, Nat.shiftRight_eq_div_pow]
  exact Nat.and_two_pow_sub_one_eq_mod _ 10

theorem index_eq_iff (virt other : Nat) (hvirt : virt < 2 ^ 32) (hother : other < 2 ^ 32) :
    pdIndex other = pdIndex virt ∧ ptIndex other = ptIndex virt ↔
      other / pageSize = virt / pageSize := by
  rw [pdIndex_eq, pdIndex_eq, ptIndex_eq, ptIndex_eq, pageSize]
  omega

theorem pagingGetPhys_eq (m : Paging) (virt : Nat) :
    pagingGetPhys m virt =
      if tableEntry m virt &&& pagePresent = 0 then 0
      else pageFrame (tableEntry m virt) ||| virt &&& 0xFFF := by
  unfold pagingGetPhys tableEntry tableAt
  by_cases hpresent : m.entry m.directory (pdIndex virt) &&& pagePresent = 0
  · rw [if_pos hpresent, if_pos hpresent, if_pos (Nat.zero_and _)]
  · rw [if_neg hpresent, if_neg hpresent]

/-- A page's frame and flags. -/
structure Mapping where
  frame : Nat
  flags : Nat
deriving DecidableEq

/-- The mapping that a table entry stands for. -/
def entryMapping (entry : Nat) : Option Mapping :=
  if entry &&& pagePresent = 0 then none else some ⟨pageFrame entry, entry &&& 0xFFF⟩

/-- The map from virtual page numbers that the tables stand for. -/
def pageMap (m : Paging) (page : Nat) : Option Mapping :=
  if page < 2 ^ 20 then entryMapping (tableEntry m (page * pageSize)) else none

theorem entryMapping_mapped (phys flags : Nat) (hphys : phys < 2 ^ 32) :
    entryMapping (mappedEntry phys flags) =
      some ⟨phys &&& 0xFFFFF000, flags &&& 0xFFF ||| pagePresent⟩ := by
  obtain ⟨hframe, hpresent, -⟩ := mapped_entry phys flags hphys
  rw [entryMapping, mappedEntry, if_neg hpresent, hframe, pageFrame_eq phys hphys, Nat.or_assoc,
    and_flag _ _ 0xFFF (by decide)]
  have hlow : flags &&& 0xFFF ||| pagePresent < 2 ^ 12 :=
    Nat.or_lt_two_pow (n := 12) (Nat.and_lt_two_pow flags (n := 12) (by decide)) (by decide)
  have hmask : (flags &&& 0xFFF ||| pagePresent) &&& 0xFFF = flags &&& 0xFFF ||| pagePresent := by
    have hmod := Nat.and_two_pow_sub_one_eq_mod (flags &&& 0xFFF ||| pagePresent) 12
    rwa [Nat.mod_eq_of_lt hlow] at hmod
  rw [hmask]

theorem pageMap_update {virt value : Nat} (hvirt : virt < 2 ^ 32)
    (hat : ∀ i j, tableAt m' i j =
      if i = pdIndex virt ∧ j = ptIndex virt then value else tableAt m i j) :
    (∀ other < 2 ^ 32, tableEntry m' other =
        if other / pageSize = virt / pageSize then value else tableEntry m other) ∧
      pageMap m' = Function.update (pageMap m) (virt / pageSize) (entryMapping value) := by
  have hentry : ∀ other < 2 ^ 32, tableEntry m' other =
      if other / pageSize = virt / pageSize then value else tableEntry m other := by
    intro other hother
    have hiff := index_eq_iff virt other hvirt hother
    rw [tableEntry, hat]
    simp only [hiff]
    rfl
  refine ⟨hentry, ?_⟩
  funext page
  by_cases hpage : page < 2 ^ 20
  · have haddr : page * pageSize < 2 ^ 32 := by
      simp only [pageSize]
      omega
    have hdiv : page * pageSize / pageSize = page := Nat.mul_div_cancel page (by decide)
    rw [pageMap, if_pos hpage, hentry _ haddr, hdiv]
    by_cases heq : page = virt / pageSize
    · rw [if_pos heq, heq, Function.update_self]
    · rw [if_neg heq, Function.update_of_ne heq, pageMap, if_pos hpage]
  · have hne : page ≠ virt / pageSize := by
      simp only [pageSize]
      omega
    rw [Function.update_of_ne hne, pageMap, if_neg hpage, pageMap, if_neg hpage]

/-- Calls after `paging_init`. -/
inductive PagingCall where
  | map (virt phys flags : UInt32)
  | unmap (virt : UInt32)
deriving DecidableEq

def pagingStep (src : PageSource Pages) (s : Paging × Pages) : PagingCall → Paging × Pages → Prop
  | .map virt phys flags, s' => s' = pagingMap src s.1 s.2 virt.toNat phys.toNat flags.toNat
  | .unmap virt, s' => s' = (pagingUnmap s.1 virt.toNat, s.2)

theorem PagingInv.step {src : PageSource Pages} {s s' : Paging × Pages} {call : PagingCall}
    (hinv : PagingInv src s) (hstep : pagingStep src s call s') : PagingInv src s' := by
  cases call with
  | map virt phys flags =>
      obtain rfl : s' = pagingMap src s.1 s.2 virt.toNat phys.toNat flags.toNat := hstep
      exact (pagingMap_tableAt hinv _ _ _).1
  | unmap virt =>
      obtain rfl : s' = (pagingUnmap s.1 virt.toNat, s.2) := hstep
      exact (pagingUnmap_tableAt hinv _).1

/-- In every run after `paging_init` the tables are a map from virtual pages to frames and
flags: `paging_map` and `paging_unmap` change it at their page and nowhere else, a
`paging_map` that finds no page for a table changes nothing, and `paging_get_phys` reads it. -/
theorem pagingRun_map (src : PageSource Pages) (boot : Paging) (start : Pages)
    (halloc : AllocsSucceed src 5 start) (calls : List PagingCall) (m : Paging) (pages : Pages)
    (hrun : Run (pagingStep src) (pagingInit src boot start) calls (m, pages)) :
    (∀ virt phys flags : UInt32, ¬ OutOfPages src m pages virt.toNat →
        let m' := (pagingMap src m pages virt.toNat phys.toNat flags.toNat).1
        pagingGetPhys m' virt.toNat = phys.toNat &&& 0xFFFFF000 ||| virt.toNat &&& 0xFFF ∧
        pageMap m' = Function.update (pageMap m) (virt.toNat / 4096)
          (some ⟨phys.toNat &&& 0xFFFFF000, flags.toNat &&& 0xFFF ||| pagePresent⟩) ∧
        ∀ other : UInt32, other.toNat / 4096 ≠ virt.toNat / 4096 →
          tableEntry m' other.toNat = tableEntry m other.toNat) ∧
      (∀ virt phys flags : UInt32, OutOfPages src m pages virt.toNat →
        (pagingMap src m pages virt.toNat phys.toNat flags.toNat).1 = m) ∧
      (∀ virt : UInt32,
        let m' := pagingUnmap m virt.toNat
        tableEntry m' virt.toNat &&& pagePresent = 0 ∧ pagingGetPhys m' virt.toNat = 0 ∧
        pageMap m' = Function.update (pageMap m) (virt.toNat / 4096) none ∧
        ∀ other : UInt32, other.toNat / 4096 ≠ virt.toNat / 4096 →
          tableEntry m' other.toNat = tableEntry m other.toNat) ∧
      ∀ virt : UInt32, pagingGetPhys m virt.toNat =
        if tableEntry m virt.toNat &&& pagePresent = 0 then 0
        else pageFrame (tableEntry m virt.toNat) ||| virt.toNat &&& 0xFFF := by
  have hinv : PagingInv src (m, pages) :=
    hrun.invariant (fun _ _ _ hinv hstep => hinv.step hstep) (pagingInit_map src boot start halloc).inv
  refine ⟨?_, ?_, ?_, fun virt => pagingGetPhys_eq m _⟩
  · intro virt phys flags hroom
    dsimp only
    have hat := (pagingMap_tableAt hinv virt.toNat phys.toNat flags.toNat).2 hroom
    obtain ⟨hentry, hmap⟩ := pageMap_update virt.toNat_lt hat
    obtain ⟨hframe, hpresent, -⟩ := mapped_entry phys.toNat flags.toNat phys.toNat_lt
    rw [entryMapping_mapped _ _ phys.toNat_lt] at hmap
    refine ⟨?_, hmap, ?_⟩
    · rw [pagingGetPhys_eq, hentry _ virt.toNat_lt, if_pos rfl, mappedEntry, if_neg hpresent, hframe,
        pageFrame_eq _ phys.toNat_lt]
    · intro other hother
      rw [hentry _ other.toNat_lt]
      exact if_neg hother
  · intro virt phys flags hout
    exact pagingMap_failed src pages _ _ _ hout
  · intro virt
    dsimp only
    have hat := (pagingUnmap_tableAt hinv virt.toNat).2
    obtain ⟨hentry, hmap⟩ := pageMap_update virt.toNat_lt hat
    have hself : tableEntry (pagingUnmap m virt.toNat) virt.toNat = 0 := by
      rw [hentry _ virt.toNat_lt, if_pos rfl]
    refine ⟨by rw [hself, Nat.zero_and], ?_, ?_, ?_⟩
    · rw [pagingGetPhys_eq, hself, if_pos (Nat.zero_and _)]
    · exact hmap
    · intro other hother
      rw [hentry _ other.toNat_lt]
      exact if_neg hother

theorem AllocsSucceed.pagingInit {src : PageSource Pages} {n : Nat} {start : Pages}
    (halloc : AllocsSucceed src (n + 5) start) (m : Paging) :
    AllocsSucceed src n (Magnos.pagingInit src m start).2 :=
  halloc.2.2.2.2.2

/-- A page above the identity map gets a table of its own and is unmapped again. -/
theorem pagingRun_map_unmap :
    ∃ m pages, Run (pagingStep pmmSource)
        (pagingInit pmmSource ⟨0, fun _ _ => 0⟩ (pmmInit 0x100000))
        [.map 0x1400000 0x200000 7] (m, pages) ∧
      tableEntry (pagingInit pmmSource ⟨0, fun _ _ => 0⟩ (pmmInit 0x100000)).1 0x1400000 = 0 ∧
      pagingGetPhys m 0x1400000 = 0x200000 ∧
      pagingGetPhys (pagingUnmap m 0x1400000) 0x1400000 = 0 := by
  have hfive := allocsSucceed_pmmInit 5 0x100000 (by decide) (by decide) (by decide)
  have hnext := (allocsSucceed_pmmInit 6 0x100000 (by decide) (by decide)
    (by decide)).pagingInit ⟨0, fun _ _ => 0⟩
  have hinit := pagingInit_map pmmSource ⟨0, fun _ _ => 0⟩ _ hfive
  have hruns := pagingRun_map pmmSource ⟨0, fun _ _ => 0⟩ _ hfive
  obtain ⟨booted, hbooted⟩ :
      ∃ s, pagingInit pmmSource ⟨0, fun _ _ => 0⟩ (pmmInit 0x100000) = s := ⟨_, rfl⟩
  rw [hbooted] at hnext hinit hruns ⊢
  have hmap := (hruns [] booted.1 booted.2 (.nil _)).1 0x1400000 0x200000 7
    fun hout => hnext.1 hout.2
  have hrun : Run (pagingStep pmmSource) booted [.map 0x1400000 0x200000 7]
      (pagingMap pmmSource booted.1 booted.2 0x1400000 0x200000 7) := .snoc (.nil _) rfl
  have hunmap := (hruns _ _ _ hrun).2.2.1 0x1400000
  have hindex : tableEntry booted.1 0x1400000 = tableAt booted.1 5 0 := rfl
  refine ⟨_, _, hrun, ?_, hmap.1, hunmap.2.1⟩
  rw [hindex, hinit.entries 5 0 (by decide), if_neg (by decide)]

end Magnos
