import Magnos.Process.Table

/-!
# The timer inside `process_create`

The timer's `schedule` may run between any two statements of `process_create`, and then
another process goes on, which may itself be inside a call of `process_create`.  Every process
has its own call here; only the current process executes statements.

A slot is `PROC_READY` from its second statement on, but its stack pointer is set only after
the frame is built.  A tick between the two may switch to a process that has no context yet.
-/

namespace Magnos

open Framework

variable {Pages : Type} {src : PageSource Pages}

/-- The next statement of a call of `process_create`.  `push k` is the statement that writes
word `k` of the frame. -/
inductive CreatePc where
  | search (i : Nat)
  | takePage
  | testPage
  | setPid
  | setState
  | setKernelStack
  | setEip
  | setPageDirectory
  | setSp
  | push (k : Nat)
  | setEsp
  | setName (i : Nat)
  | endName (i : Nat)
deriving DecidableEq

/-- A call of `process_create` with its arguments and locals. -/
structure CreateCall where
  name : List UInt8
  entry : Nat
  slot : Nat
  page : Nat
  sp : Nat
  pc : CreatePc
deriving DecidableEq

def CreateCall.start (name : List UInt8) (entry : Nat) : CreateCall :=
  ⟨name, entry, 0, 0, 0, .search 0⟩

/-- The call's slot with some of its fields written. -/
def CreateCall.write (c : CreateCall) (t : ProcTable) (f : Process → Process) : ProcTable :=
  t.setProc c.slot (f (t.proc c.slot))

/-- One statement; the call is none when it returns.  The name is written when its terminator
is. -/
def CreateCall.exec (src : PageSource Pages) (c : CreateCall) (t : ProcTable) (pages : Pages) :
    ProcTable × Pages × Option CreateCall :=
  match c.pc with
  | .search i =>
      if i < maxProcesses then
        if (t.proc i).state = .unused then (t, pages, some { c with slot := i, pc := .takePage })
        else (t, pages, some { c with pc := .search (i + 1) })
      else (t, pages, none)
  | .takePage =>
      (t, (src.alloc pages).2, some { c with page := (src.alloc pages).1, pc := .testPage })
  | .testPage => (t, pages, if c.page = 0 then none else some { c with pc := .setPid })
  | .setPid =>
      ({ c.write t (fun p => { p with pid := t.nextPid }) with
          nextPid := (t.nextPid + 1) % 2 ^ 32 }, pages, some { c with pc := .setState })
  | .setState =>
      (c.write t fun p => { p with state := .ready }, pages, some { c with pc := .setKernelStack })
  | .setKernelStack =>
      (c.write t fun p => { p with kernelStack := c.page }, pages, some { c with pc := .setEip })
  | .setEip =>
      (c.write t fun p => { p with eip := c.entry }, pages, some { c with pc := .setPageDirectory })
  | .setPageDirectory =>
      (c.write t fun p => { p with pageDirectory := 0 }, pages, some { c with pc := .setSp })
  | .setSp => (t, pages, some { c with sp := (c.page + pageSize) % 2 ^ 32, pc := .push 0 })
  | .push k =>
      ({ t with word := Function.update t.word (sub32 c.sp 4) (if k = 0 then c.entry else 0) }, pages,
        some { c with sp := sub32 c.sp 4, pc := if k = 8 then .setEsp else .push (k + 1) })
  | .setEsp => (c.write t fun p => { p with esp := c.sp }, pages, some { c with pc := .setName 0 })
  | .setName i =>
      (t, pages,
        some { c with pc := if i < c.name.length ∧ i < 15 then .setName (i + 1) else .endName i })
  | .endName i => (c.write t fun p => { p with name := c.name.take i }, pages, none)

/-- The kernel's processes: the table, the call of `process_create` that each process is in,
and the stack pointer that the last `context_switch` saved for the process of a slot. -/
structure Preempt (Pages : Type) where
  table : ProcTable
  pages : Pages
  call : Nat → Option CreateCall
  saved : Nat → Option Nat

def Preempt.boot (start : ProcTable) (pages : Pages) : Preempt Pages :=
  ⟨processInit start, pages, fun _ => none, fun _ => none⟩

/-- The current process executes a statement of its call.  When the call sets the stack
pointer of its slot, the slot has a new process. -/
def Preempt.exec (src : PageSource Pages) (s : Preempt Pages) (cur : Nat) (c : CreateCall) :
    Preempt Pages :=
  let (table, pages, call) := c.exec src s.table s.pages
  let s := { s with table := table, pages := pages, call := Function.update s.call cur call }
  if c.pc = .setEsp then
    { s with
      call := Function.update s.call c.slot none
      saved := Function.update s.saved c.slot none }
  else s

/-- `schedule`, with the stack pointer that `context_switch` saves for the old process. -/
def Preempt.tick (s : Preempt Pages) (esp : Nat) : Preempt Pages :=
  match scheduleSelect s.table with
  | (none, table) => { s with table := table }
  | (some (old, _), table) =>
      { s with
        table := table.setProc old { table.proc old with esp := esp }
        saved := Function.update s.saved old (some esp) }

inductive PreemptOp where
  | call (name : List UInt8) (entry : Nat)
  | advance
  | tick (esp : Nat)
deriving DecidableEq

def preemptStep (src : PageSource Pages) (s : Preempt Pages) :
    PreemptOp → Preempt Pages → Prop
  | .call name entry, s' => ∃ cur, s.table.current = some cur ∧ s.call cur = none ∧
      s' = { s with call := Function.update s.call cur (some (.start name entry)) }
  | .advance, s' => ∃ cur c, s.table.current = some cur ∧ s.call cur = some c ∧
      s' = s.exec src cur c
  | .tick esp, s' => s' = s.tick esp

/-- The first `k` words of the frame that `process_create` builds at the top of a page. -/
def Pushed (word : Nat → Nat) (page entry k : Nat) : Prop :=
  ∀ j < k, word (page + 4092 - 4 * j) = if j = 0 then entry else 0

/-- The stack pointer of a process is at its initial frame: eight zero words and the entry
address, at the top of its stack page. -/
def InitialFrame (word : Nat → Nat) (p : Process) : Prop :=
  p.esp = p.kernelStack + 4060 ∧ Pushed word p.kernelStack p.eip 9

/-- The process of the slot has a complete context: its initial frame or the one that its
last `context_switch` saved. -/
def CompleteContext (s : Preempt Pages) (slot : Nat) : Prop :=
  InitialFrame s.table.word (s.table.proc slot) ∨ s.saved slot = some (s.table.proc slot).esp

/-- The statements after the slot is ready and up to the one that sets its stack pointer. -/
def CreatePc.exposed : CreatePc → Bool
  | .setKernelStack | .setEip | .setPageDirectory | .setSp | .push _ | .setEsp => true
  | _ => false

/-- No tick while the current process has made a slot ready and not yet set its stack
pointer. -/
def Sealed (s : Preempt Pages) : PreemptOp → Prop
  | .tick _ => ∀ cur c, s.table.current = some cur → s.call cur = some c → c.pc.exposed = false
  | _ => True

/-- The statements at which a call holds a page that no slot has. -/
def CreatePc.holds : CreatePc → Bool
  | .testPage | .setPid | .setState => true
  | pc => pc.exposed

/-- What a call has done to its slot when it is exposed. -/
def CreateCall.Progress (c : CreateCall) (t : ProcTable) : Prop :=
  match c.pc with
  | .setEip => (t.proc c.slot).kernelStack = c.page
  | .setPageDirectory | .setSp =>
      (t.proc c.slot).kernelStack = c.page ∧ (t.proc c.slot).eip = c.entry
  | .push k =>
      (t.proc c.slot).kernelStack = c.page ∧ (t.proc c.slot).eip = c.entry ∧ k < 9 ∧
        c.sp = (c.page + 4096 - 4 * k) % 2 ^ 32 ∧ Pushed t.word c.page c.entry k
  | .setEsp =>
      (t.proc c.slot).kernelStack = c.page ∧ (t.proc c.slot).eip = c.entry ∧
        c.sp = c.page + 4060 ∧ Pushed t.word c.page c.entry 9
  | _ => True

/-- A page that a call has taken. -/
structure HeldPage (src : PageSource Pages) (pages : Pages) (page : Nat) : Prop where
  aligned : page % pageSize = 0
  bounded : page < 2 ^ 32
  taken : page ≠ 0 → ¬ src.Available pages page

/-- The process of a slot that has not run yet stands on a page of its own. -/
structure Waiting (src : PageSource Pages) (s : Preempt Pages) (slot : Nat) : Prop where
  frame : InitialFrame s.table.word (s.table.proc slot)
  page_ne : (s.table.proc slot).kernelStack ≠ 0
  page : HeldPage src s.pages (s.table.proc slot).kernelStack
  own : ∀ m c, s.call m = some c → c.pc.holds = true →
    c.page ≠ (s.table.proc slot).kernelStack

structure PreemptInv (src : PageSource Pages) (cur : Nat) (s : Preempt Pages) : Prop where
  current : s.table.current = some cur
  cur_lt : cur < maxProcesses
  running : (s.table.proc cur).state = .running
  slot : ∀ m c, s.call m = some c → (∃ i, c.pc = .search i) ∨ c.slot < maxProcesses ∧ c.slot ≠ m
  parked : ∀ m c, m ≠ cur → s.call m = some c → c.pc.exposed = false
  progress : ∀ c, s.call cur = some c → c.Progress s.table
  held : ∀ m c, s.call m = some c → c.pc.holds = true →
    HeldPage src s.pages c.page ∧ (c.pc ≠ .testPage → c.page ≠ 0)
  apart : ∀ m m' c c', m ≠ m' → s.call m = some c → s.call m' = some c' → c.pc.holds = true →
    c'.pc.holds = true → c.page ≠ 0 → c.page ≠ c'.page
  complete : ∀ n < maxProcesses, (s.table.proc n).state = .ready →
    (∀ c, s.call cur = some c → c.pc.exposed = true → c.slot ≠ n) →
    s.saved n = some (s.table.proc n).esp ∨ Waiting src s n

/-- Tables that differ in nothing that the scheduler or a frame depends on. -/
structure Agree (t t' : ProcTable) : Prop where
  current : t'.current = t.current
  word : t'.word = t.word
  state : ∀ i, (t'.proc i).state = (t.proc i).state
  esp : ∀ i, (t'.proc i).esp = (t.proc i).esp
  eip : ∀ i, (t'.proc i).eip = (t.proc i).eip
  kernelStack : ∀ i, (t'.proc i).kernelStack = (t.proc i).kernelStack

theorem Agree.refl (t : ProcTable) : Agree t t :=
  ⟨rfl, rfl, fun _ => rfl, fun _ => rfl, fun _ => rfl, fun _ => rfl⟩

theorem CreateCall.write_proc (c : CreateCall) (t : ProcTable) (f : Process → Process) (i : Nat) :
    (c.write t f).proc i = if i = c.slot then f (t.proc c.slot) else t.proc i :=
  t.setProc_proc c.slot _ i

theorem update_eq_some {call : Nat → Option CreateCall} {cur m : Nat} {new : Option CreateCall}
    {c : CreateCall} (h : Function.update call cur new m = some c) :
    m = cur ∧ new = some c ∨ m ≠ cur ∧ call m = some c := by
  by_cases hm : m = cur
  · rw [hm, Function.update_self] at h
    exact .inl ⟨hm, h⟩
  · rw [Function.update_of_ne hm] at h
    exact .inr ⟨hm, h⟩

theorem CreateCall.progress_of_not_exposed {c : CreateCall} (t : ProcTable)
    (h : c.pc.exposed = false) : c.Progress t := by
  unfold CreateCall.Progress
  cases hpc : c.pc <;> simp_all [CreatePc.exposed]

theorem Waiting.keep {s s' : Preempt Pages} {n : Nat} (hwaiting : Waiting src s n)
    (hstack : (s'.table.proc n).kernelStack = (s.table.proc n).kernelStack)
    (hframe : InitialFrame s'.table.word (s'.table.proc n))
    (hpage : HeldPage src s'.pages (s.table.proc n).kernelStack)
    (hown : ∀ m c, s'.call m = some c → c.pc.holds = true →
      c.page ≠ (s.table.proc n).kernelStack) : Waiting src s' n := by
  refine ⟨hframe, ?_, ?_, ?_⟩ <;> rw [hstack]
  · exact hwaiting.page_ne
  · exact hpage
  · exact hown

namespace PreemptInv

variable {cur : Nat} {s : Preempt Pages}

theorem boot (start : ProcTable) (hstart : start.nextPid = 0) (pages : Pages) :
    PreemptInv src 0 (Preempt.boot start pages) := by
  have hinit : ProcInv src 0 (processInit start) pages := .init start hstart pages
  have hnone : ∀ m c, (Preempt.boot start pages).call m = some c → False := by
    intro m c h
    cases h
  refine ⟨hinit.current, by decide, hinit.running, fun m c h => (hnone m c h).elim,
    fun m c _ h => (hnone m c h).elim, fun c h => (hnone 0 c h).elim,
    fun m c h => (hnone m c h).elim, fun m m' c c' _ h => (hnone m c h).elim, ?_⟩
  intro n hn hready
  have hused : n < (processInit start).nextPid := (hinit.used_iff hn).mp (by
    rw [show ((processInit start).proc n).state = .ready from hready]
    decide)
  have hzero : n = 0 := by
    rw [(processInit_spec start).1, hstart] at hused
    omega
  rw [hzero] at hready
  exact absurd (hinit.running.symm.trans hready) (by decide)

theorem replace (hinv : PreemptInv src cur s) {table' : ProcTable} {pages' : Pages}
    {call' : Option CreateCall} (hcurrent : table'.current = s.table.current)
    (hrunning : (table'.proc cur).state = .running)
    (hkeep : ∀ page, HeldPage src s.pages page → HeldPage src pages' page)
    (hcall : ∀ x, call' = some x →
      ((∃ i, x.pc = .search i) ∨ x.slot < maxProcesses ∧ x.slot ≠ cur) ∧ x.Progress table' ∧
      (x.pc.holds = true → HeldPage src pages' x.page ∧ (x.pc ≠ .testPage → x.page ≠ 0) ∧
        ∀ m c, m ≠ cur → s.call m = some c → c.pc.holds = true → x.page ≠ 0 → x.page ≠ c.page))
    (hcomplete : ∀ n < maxProcesses, (table'.proc n).state = .ready →
      (∀ x, call' = some x → x.pc.exposed = true → x.slot ≠ n) →
      s.saved n = some (table'.proc n).esp ∨
        Waiting src ⟨table', pages', Function.update s.call cur call', s.saved⟩ n) :
    PreemptInv src cur ⟨table', pages', Function.update s.call cur call', s.saved⟩ := by
  refine ⟨hcurrent.trans hinv.current, hinv.cur_lt, hrunning, ?_, ?_, ?_, ?_, ?_, ?_⟩
  · intro m c hc
    rcases update_eq_some hc with ⟨rfl, hx⟩ | ⟨-, hold⟩
    · exact (hcall c hx).1
    · exact hinv.slot m c hold
  · intro m c hm hc
    rcases update_eq_some hc with ⟨h, -⟩ | ⟨-, hold⟩
    · exact (hm h).elim
    · exact hinv.parked m c hm hold
  · intro c hc
    rcases update_eq_some hc with ⟨-, hx⟩ | ⟨h, -⟩
    · exact (hcall c hx).2.1
    · exact (h rfl).elim
  · intro m c hc hholds
    rcases update_eq_some hc with ⟨rfl, hx⟩ | ⟨-, hold⟩
    · obtain ⟨hheld, hne, -⟩ := (hcall c hx).2.2 hholds
      exact ⟨hheld, hne⟩
    · obtain ⟨hheld, hne⟩ := hinv.held m c hold hholds
      exact ⟨hkeep _ hheld, hne⟩
  · intro m m' c c' hne hc hc' hholds hholds' hzero
    rcases update_eq_some hc with ⟨rfl, hx⟩ | ⟨hm, hold⟩
    · rcases update_eq_some hc' with ⟨h, -⟩ | ⟨hm', hold'⟩
      · exact (hne h.symm).elim
      · exact ((hcall c hx).2.2 hholds).2.2 m' c' hm' hold' hholds' hzero
    · rcases update_eq_some hc' with ⟨rfl, hx⟩ | ⟨-, hold'⟩
      · by_cases hzero' : c'.page = 0
        · rw [hzero']
          exact hzero
        · exact (((hcall c' hx).2.2 hholds').2.2 m c hm hold hholds hzero').symm
      · exact hinv.apart m m' c c' hne hold hold' hholds hholds' hzero
  · intro n hn hready hother
    apply hcomplete n hn hready
    intro x hx
    exact hother x (by rw [hx]; exact Function.update_self ..)

theorem apart_of_held (hinv : PreemptInv src cur s) {c : CreateCall} (hc : s.call cur = some c)
    (hholds : c.pc.holds = true) :
    ∀ m d, m ≠ cur → s.call m = some d → d.pc.holds = true → c.page ≠ 0 → c.page ≠ d.page :=
  fun m d hm hd hdholds hzero => hinv.apart cur m c d hm.symm hc hd hholds hdholds hzero

theorem slot_range (hinv : PreemptInv src cur s) {c : CreateCall} (hc : s.call cur = some c)
    (hpc : ∀ i, c.pc ≠ .search i) : c.slot < maxProcesses ∧ c.slot ≠ cur := by
  rcases hinv.slot cur c hc with ⟨i, hsearch⟩ | hrange
  · exact (hpc i hsearch).elim
  · exact hrange

theorem quiet (hinv : PreemptInv src cur s) {table' : ProcTable} {call' : Option CreateCall}
    (hagree : Agree s.table table') (hold : ∀ c, s.call cur = some c → c.pc.exposed = false)
    (hcall : ∀ x, call' = some x → x.pc.exposed = false ∧
      ((∃ i, x.pc = .search i) ∨ x.slot < maxProcesses ∧ x.slot ≠ cur) ∧
      (x.pc.holds = true → x.page ≠ 0 ∧ ∃ c, s.call cur = some c ∧ c.pc.holds = true ∧
        x.page = c.page)) :
    PreemptInv src cur ⟨table', s.pages, Function.update s.call cur call', s.saved⟩ := by
  apply hinv.replace hagree.current ((hagree.state cur).trans hinv.running) fun _ h => h
  · intro x hx
    obtain ⟨hexposed, hslot, hholds⟩ := hcall x hx
    refine ⟨hslot, x.progress_of_not_exposed _ hexposed, ?_⟩
    intro h
    obtain ⟨hzero, c, hc, hcholds, hpage⟩ := hholds h
    refine ⟨?_, fun _ => hzero, ?_⟩
    · rw [hpage]
      exact (hinv.held cur c hc hcholds).1
    · rw [hpage]
      exact hinv.apart_of_held hc hcholds
  · intro n hn hready _
    rw [hagree.state] at hready
    rcases hinv.complete n hn hready (fun c hc hexposed => by
      rw [hold c hc] at hexposed
      cases hexposed) with hsaved | hwaiting
    · left
      rw [hagree.esp]
      exact hsaved
    · refine .inr (hwaiting.keep (hagree.kernelStack n) ?_ hwaiting.page ?_)
      · show (table'.proc n).esp = (table'.proc n).kernelStack + 4060 ∧
          Pushed table'.word (table'.proc n).kernelStack (table'.proc n).eip 9
        rw [hagree.esp, hagree.kernelStack, hagree.eip, hagree.word]
        exact hwaiting.frame
      · intro m c hc hholds
        rcases update_eq_some hc with ⟨rfl, hx⟩ | ⟨-, hc⟩
        · obtain ⟨-, y, hy, hyholds, hpage⟩ := (hcall c hx).2.2 hholds
          rw [hpage]
          exact hwaiting.own _ y hy hyholds
        · exact hwaiting.own m c hc hholds

theorem takePage (hinv : PreemptInv src cur s) {c x : CreateCall} (hc : s.call cur = some c)
    (hpc : c.pc = .takePage) (hx : x.pc = .testPage) (hslot : x.slot = c.slot)
    (hpage : x.page = (src.alloc s.pages).1) :
    PreemptInv src cur
      ⟨s.table, (src.alloc s.pages).2, Function.update s.call cur (some x), s.saved⟩ := by
  have hkeep : ∀ page, HeldPage src s.pages page → HeldPage src (src.alloc s.pages).2 page :=
    fun page h => ⟨h.aligned, h.bounded, fun hne havail =>
      h.taken hne (src.alloc_shrinks s.pages page havail)⟩
  have hnew : x.page ≠ 0 → src.Available s.pages x.page := by
    rw [hpage]
    exact src.alloc_available s.pages
  have hfresh : ∀ page, page ≠ 0 → HeldPage src s.pages page → x.page ≠ page := by
    rintro page hne hheld rfl
    exact hheld.taken hne (hnew hne)
  apply hinv.replace rfl hinv.running hkeep
  · intro y hy
    obtain rfl := Option.some.inj hy
    have hrange := hinv.slot_range hc fun i => by
      rw [hpc]
      intro h
      cases h
    refine ⟨.inr (hslot ▸ hrange), x.progress_of_not_exposed _ (by rw [hx]; rfl), ?_⟩
    intro _
    refine ⟨?_, fun h => (h hx).elim, ?_⟩
    · by_cases hzero : x.page = 0
      · rw [hzero]
        exact ⟨rfl, by decide, fun h => (h rfl).elim⟩
      · refine ⟨src.aligned _ _ (hnew hzero), src.bounded _ _ (hnew hzero), ?_⟩
        intro _
        rw [hpage] at hzero ⊢
        exact src.alloc_taken s.pages hzero
    · intro m d _ hd hdholds hzero
      by_cases hzero' : d.page = 0
      · rw [hzero']
        exact hzero
      · exact hfresh _ hzero' (hinv.held m d hd hdholds).1
  · intro n hn hready _
    rcases hinv.complete n hn hready (fun d hd hexposed => by
      rw [hc, Option.some.injEq] at hd
      rw [← hd, hpc] at hexposed
      cases hexposed) with hsaved | hwaiting
    · exact .inl hsaved
    · refine .inr (hwaiting.keep rfl hwaiting.frame (hkeep _ hwaiting.page) ?_)
      intro m y hy hholds
      rcases update_eq_some hy with ⟨-, hxy⟩ | ⟨-, hold⟩
      · obtain rfl := Option.some.inj hxy
        exact hfresh _ hwaiting.page_ne hwaiting.page
      · exact hwaiting.own m y hold hholds

theorem waiting_of_write (hinv : PreemptInv src cur s) {c x : CreateCall}
    (hc : s.call cur = some c) (hholds : c.pc.holds = true) (hpage : x.page = c.page)
    {table' : ProcTable} (hproc : ∀ i, i ≠ c.slot → table'.proc i = s.table.proc i)
    (hword : ∀ page entry, page % pageSize = 0 → page ≠ c.page →
      Pushed s.table.word page entry 9 → Pushed table'.word page entry 9)
    {n : Nat} (hn : n < maxProcesses) (hne : n ≠ c.slot) (hready : (table'.proc n).state = .ready) :
    s.saved n = some (table'.proc n).esp ∨
      Waiting src ⟨table', s.pages, Function.update s.call cur (some x), s.saved⟩ n := by
  have hsame := hproc n hne
  rw [hsame] at hready
  rcases hinv.complete n hn hready (fun d hd _ => by
    rw [hc, Option.some.injEq] at hd
    rw [← hd]
    exact hne.symm) with hsaved | hwaiting
  · left
    rw [hsame]
    exact hsaved
  · refine .inr (hwaiting.keep (congrArg Process.kernelStack hsame) ?_ hwaiting.page ?_)
    · show (table'.proc n).esp = (table'.proc n).kernelStack + 4060 ∧
        Pushed table'.word (table'.proc n).kernelStack (table'.proc n).eip 9
      rw [hsame]
      exact ⟨hwaiting.frame.1, hword _ _ hwaiting.page.aligned
        (hwaiting.own cur c hc hholds).symm hwaiting.frame.2⟩
    · intro m y hy hyholds
      rcases update_eq_some hy with ⟨-, hxy⟩ | ⟨-, hold⟩
      · obtain rfl := Option.some.inj hxy
        rw [hpage]
        exact hwaiting.own _ c hc hholds
      · exact hwaiting.own m y hold hyholds

/-- A statement of the exposed part but its last, or the one that makes the slot ready. -/
theorem inside (hinv : PreemptInv src cur s) {c x : CreateCall} (hc : s.call cur = some c)
    (hholds : c.pc.holds = true) (hpc : c.pc ≠ .testPage) (hx : x.pc.exposed = true)
    (hslot : x.slot = c.slot) (hpage : x.page = c.page) {table' : ProcTable}
    (hcurrent : table'.current = s.table.current)
    (hproc : ∀ i, i ≠ c.slot → table'.proc i = s.table.proc i)
    (hword : ∀ page entry, page % pageSize = 0 → page ≠ c.page →
      Pushed s.table.word page entry 9 → Pushed table'.word page entry 9)
    (hprogress : x.Progress table') :
    PreemptInv src cur ⟨table', s.pages, Function.update s.call cur (some x), s.saved⟩ := by
  obtain ⟨hheld, hzero⟩ := hinv.held cur c hc hholds
  have hrange := hinv.slot_range hc fun i h => by
    rw [h] at hholds
    cases hholds
  apply hinv.replace hcurrent (by rw [hproc cur hrange.2.symm]; exact hinv.running) fun _ h => h
  · intro y hy
    obtain rfl := Option.some.inj hy
    refine ⟨.inr (hslot ▸ hrange), hprogress, ?_⟩
    intro _
    rw [hpage]
    exact ⟨hheld, fun _ => hzero hpc, hinv.apart_of_held hc hholds⟩
  · intro n hn hready hother
    have hne : n ≠ c.slot := by
      rw [← hslot]
      exact (hother x rfl hx).symm
    exact hinv.waiting_of_write hc hholds hpage hproc hword hn hne hready

theorem takeOver (hinv : PreemptInv src cur s) {slot : Nat} (hne : slot ≠ cur)
    (hwaiting : Waiting src s slot) :
    PreemptInv src cur { s with
      call := Function.update s.call slot none, saved := Function.update s.saved slot none } := by
  have hfewer : ∀ m c, Function.update s.call slot none m = some c → s.call m = some c := by
    intro m c hc
    rcases update_eq_some hc with ⟨-, h⟩ | ⟨-, hold⟩
    · cases h
    · exact hold
  have hkeep : ∀ n, Waiting src s n → Waiting src { s with
      call := Function.update s.call slot none, saved := Function.update s.saved slot none } n :=
    fun n h => h.keep rfl h.frame h.page fun m c hc => h.own m c (hfewer m c hc)
  refine ⟨hinv.current, hinv.cur_lt, hinv.running, fun m c hc => hinv.slot m c (hfewer m c hc),
    fun m c hm hc => hinv.parked m c hm (hfewer m c hc),
    fun c hc => hinv.progress c (hfewer cur c hc), fun m c hc => hinv.held m c (hfewer m c hc),
    fun m m' c c' h hc hc' => hinv.apart m m' c c' h (hfewer m c hc) (hfewer m' c' hc'), ?_⟩
  intro n hn hready hother
  by_cases hslot : n = slot
  · exact .inr (hslot ▸ hkeep slot hwaiting)
  · have hcall : Function.update s.call slot none cur = s.call cur := Function.update_of_ne hne.symm ..
    rcases hinv.complete n hn hready (fun c hc => hother c (hcall.trans hc)) with hsaved | hwait
    · left
      show Function.update s.saved slot none n = _
      rw [Function.update_of_ne hslot]
      exact hsaved
    · exact .inr (hkeep n hwait)

theorem setEsp (hinv : PreemptInv src cur s) {c x : CreateCall} (hc : s.call cur = some c)
    (hpc : c.pc = .setEsp) (hx : x.pc = .setName 0) (hslot : x.slot = c.slot)
    (hpage : x.page = c.page) {table' : ProcTable} (hcurrent : table'.current = s.table.current)
    (hword : table'.word = s.table.word)
    (hproc : ∀ i, table'.proc i =
      if i = c.slot then { s.table.proc c.slot with esp := c.sp } else s.table.proc i) :
    PreemptInv src cur
      ⟨table', s.pages, Function.update (Function.update s.call cur (some x)) c.slot none,
        Function.update s.saved c.slot none⟩ := by
  have hholds : c.pc.holds = true := by
    rw [hpc]
    rfl
  obtain ⟨hheld, hzero⟩ := hinv.held cur c hc hholds
  have hrange := hinv.slot_range hc fun i h => by
    rw [h] at hholds
    cases hholds
  have hprogress := hinv.progress c hc
  rw [CreateCall.Progress, hpc] at hprogress
  obtain ⟨hstack, heip, hsp, hpushed⟩ := hprogress
  have hself : table'.proc c.slot = { s.table.proc c.slot with esp := c.sp } := by
    rw [hproc, if_pos rfl]
  have hother : ∀ i, i ≠ c.slot → table'.proc i = s.table.proc i := by
    intro i hi
    rw [hproc, if_neg hi]
  have hwaiting : Waiting src
      ⟨table', s.pages, Function.update s.call cur (some x), s.saved⟩ c.slot := by
    refine ⟨?_, ?_, ?_, ?_⟩
    · show (table'.proc c.slot).esp = (table'.proc c.slot).kernelStack + 4060 ∧
        Pushed table'.word (table'.proc c.slot).kernelStack (table'.proc c.slot).eip 9
      rw [hself, hword]
      dsimp only
      rw [hstack, heip]
      exact ⟨hsp, hpushed⟩
    · show (table'.proc c.slot).kernelStack ≠ 0
      rw [hself]
      dsimp only
      rw [hstack]
      exact hzero (by rw [hpc]; decide)
    · show HeldPage src s.pages (table'.proc c.slot).kernelStack
      rw [hself]
      dsimp only
      rw [hstack]
      exact hheld
    · intro m d hd hdholds
      show d.page ≠ (table'.proc c.slot).kernelStack
      rw [hself]
      dsimp only
      rw [hstack]
      rcases update_eq_some hd with ⟨-, hxd⟩ | ⟨hm, hold⟩
      · obtain rfl := Option.some.inj hxd
        rw [hx] at hdholds
        cases hdholds
      · exact (hinv.apart_of_held hc hholds m d hm hold hdholds (hzero (by rw [hpc]; decide))).symm
  refine takeOver ?_ hrange.2 hwaiting
  apply hinv.replace hcurrent (by rw [hother cur hrange.2.symm]; exact hinv.running) fun _ h => h
  · intro y hy
    obtain rfl := Option.some.inj hy
    refine ⟨.inr (hslot ▸ hrange), x.progress_of_not_exposed _ (by rw [hx]; rfl), ?_⟩
    intro h
    rw [hx] at h
    cases h
  · intro n hn hready _
    by_cases hne : n = c.slot
    · exact .inr (hne ▸ hwaiting)
    · exact hinv.waiting_of_write hc hholds hpage hother (fun page entry _ _ h => by rwa [hword])
        hn hne hready

/-- What a tick that selects another process changes. -/
structure TickTo (s : Preempt Pages) (cur next esp : Nat) (t : Preempt Pages) : Prop where
  proc : ∀ i, t.table.proc i =
    if i = next then { s.table.proc next with state := .running }
    else if i = cur then { s.table.proc cur with state := .ready, esp := esp }
    else s.table.proc i
  current : t.table.current = some next
  word : t.table.word = s.table.word
  call : t.call = s.call
  pages : t.pages = s.pages
  saved : t.saved = Function.update s.saved cur (some esp)

theorem tick_cases (hinv : PreemptInv src cur s) (esp : Nat) :
    s.tick esp = s ∨ ∃ next < maxProcesses, TickTo s cur next esp (s.tick esp) := by
  rcases scheduleSelect_cases s.table with ⟨hselect, -⟩ | ⟨cur', next, hcur, hnext, hne, hselect⟩
  · left
    rw [Preempt.tick, hselect]
  · right
    obtain rfl : cur = cur' := Option.some.inj (hinv.current.symm.trans hcur)
    obtain ⟨-, hlt⟩ := ProcTable.nextReady_some hnext
    obtain ⟨hcurrent, hword, -⟩ := s.table.switched_rest cur next esp
    refine ⟨next, hlt, ?_⟩
    rw [Preempt.tick, hselect]
    exact ⟨s.table.switched_proc hne hinv.running esp, hcurrent, hword, rfl, rfl, rfl⟩

theorem TickTo.complete {next esp n : Nat} {t : Preempt Pages} (htick : TickTo s cur next esp t)
    (hbefore : (s.table.proc n).state = .ready →
      s.saved n = some (s.table.proc n).esp ∨ Waiting src s n)
    (hready : (t.table.proc n).state = .ready) :
    t.saved n = some (t.table.proc n).esp ∨ Waiting src t n := by
  rw [htick.saved]
  by_cases hnext : n = next
  · rw [htick.proc, if_pos hnext] at hready
    cases hready
  · by_cases hcur : n = cur
    · left
      rw [htick.proc, if_neg hnext, if_pos hcur, hcur, Function.update_self]
    · have hsame : t.table.proc n = s.table.proc n := by
        rw [htick.proc, if_neg hnext, if_neg hcur]
      rw [hsame] at hready
      rw [hsame, Function.update_of_ne hcur]
      apply (hbefore hready).imp_right
      intro hwaiting
      refine hwaiting.keep (congrArg Process.kernelStack hsame) ?_ ?_ ?_
      · rw [hsame, htick.word]
        exact hwaiting.frame
      · rw [htick.pages]
        exact hwaiting.page
      · rw [htick.call]
        exact hwaiting.own

theorem tick (hinv : PreemptInv src cur s) (esp : Nat)
    (hsealed : ∀ c, s.call cur = some c → c.pc.exposed = false) :
    ∃ next, PreemptInv src next (s.tick esp) := by
  have hquiet : ∀ m c, s.call m = some c → c.pc.exposed = false := by
    intro m c hc
    by_cases hm : m = cur
    · exact hsealed c (hm ▸ hc)
    · exact hinv.parked m c hm hc
  rcases hinv.tick_cases esp with heq | ⟨next, hlt, htick⟩
  · rw [heq]
    exact ⟨cur, hinv⟩
  · refine ⟨next, htick.current, hlt, ?_, ?_, ?_, ?_, ?_, ?_, ?_⟩
    · rw [htick.proc, if_pos rfl]
    · rw [htick.call]
      exact hinv.slot
    · intro m c _ hc
      rw [htick.call] at hc
      exact hquiet m c hc
    · intro c hc
      rw [htick.call] at hc
      exact c.progress_of_not_exposed _ (hquiet next c hc)
    · rw [htick.call, htick.pages]
      exact hinv.held
    · rw [htick.call]
      exact hinv.apart
    · intro n hn hready _
      refine htick.complete (fun hbefore => hinv.complete n hn hbefore ?_) hready
      intro c hc hexposed
      rw [hsealed c hc] at hexposed
      cases hexposed

end PreemptInv

theorem CreateCall.write_off (c : CreateCall) (t : ProcTable) (f : Process → Process) (i : Nat)
    (hi : i ≠ c.slot) : (c.write t f).proc i = t.proc i := by
  rw [c.write_proc, if_neg hi]

theorem CreateCall.write_at (c : CreateCall) (t : ProcTable) (f : Process → Process) :
    (c.write t f).proc c.slot = f (t.proc c.slot) := by
  rw [c.write_proc, if_pos rfl]

theorem CreateCall.write_agree (c : CreateCall) (t : ProcTable) (f : Process → Process)
    (hstate : ∀ p, (f p).state = p.state) (hesp : ∀ p, (f p).esp = p.esp)
    (heip : ∀ p, (f p).eip = p.eip) (hstack : ∀ p, (f p).kernelStack = p.kernelStack) :
    Agree t (c.write t f) := by
  refine ⟨rfl, rfl, ?_, ?_, ?_, ?_⟩ <;> intro i <;> rw [c.write_proc] <;> split
  · next h => rw [hstate, h]
  · rfl
  · next h => rw [hesp, h]
  · rfl
  · next h => rw [heip, h]
  · rfl
  · next h => rw [hstack, h]
  · rfl

theorem Preempt.exec_eq {s : Preempt Pages} {c : CreateCall} (cur : Nat) {table : ProcTable}
    {pages : Pages} {call : Option CreateCall} (hpc : c.pc ≠ .setEsp)
    (hexec : c.exec src s.table s.pages = (table, pages, call)) :
    s.exec src cur c = ⟨table, pages, Function.update s.call cur call, s.saved⟩ := by
  rw [Preempt.exec, hexec]
  dsimp only
  rw [if_neg hpc]

theorem Pushed.other {word : Nat → Nat} {page other entry k value : Nat} (hk : k < 9)
    (hpage : page % pageSize = 0) (hother : other % pageSize = 0) (hne : other ≠ page)
    (hpushed : Pushed word other entry 9) :
    Pushed (Function.update word (page + 4092 - 4 * k) value) other entry 9 := by
  intro j hj
  rw [Function.update_of_ne]
  · exact hpushed j hj
  · simp only [pageSize] at hpage hother
    omega

theorem Pushed.next {word : Nat → Nat} {page entry k : Nat} (hk : k < 9)
    (hpushed : Pushed word page entry k) :
    Pushed (Function.update word (page + 4092 - 4 * k) (if k = 0 then entry else 0)) page entry
      (k + 1) := by
  intro j hj
  by_cases hlast : j = k
  · rw [hlast, Function.update_self]
  · rw [Function.update_of_ne (by omega)]
    exact hpushed j (by omega)

theorem PreemptInv.push {cur : Nat} {s : Preempt Pages} (hinv : PreemptInv src cur s)
    {c : CreateCall} (hc : s.call cur = some c) {k : Nat} (hpc : c.pc = .push k) :
    PreemptInv src cur (s.exec src cur c) := by
  have hprogress := hinv.progress c hc
  rw [CreateCall.Progress, hpc] at hprogress
  obtain ⟨hstack, heip, hk, hsp, hpushed⟩ := hprogress
  have hholds : c.pc.holds = true := by
    rw [hpc]
    rfl
  obtain ⟨⟨haligned, hbounded, -⟩, -⟩ := hinv.held cur c hc hholds
  have haddr : sub32 c.sp 4 = c.page + 4092 - 4 * k := by
    rw [hsp, sub32]
    simp only [pageSize] at haligned
    omega
  have hexec : c.exec src s.table s.pages =
      ({ s.table with
          word := Function.update s.table.word (c.page + 4092 - 4 * k)
            (if k = 0 then c.entry else 0) }, s.pages,
        some { c with
          sp := c.page + 4092 - 4 * k, pc := if k = 8 then .setEsp else .push (k + 1) }) := by
    rw [CreateCall.exec, hpc, haddr]
  rw [Preempt.exec_eq cur (by rw [hpc]; simp) hexec]
  refine hinv.inside (x := { c with
    sp := c.page + 4092 - 4 * k, pc := if k = 8 then .setEsp else .push (k + 1) }) hc hholds
    (by rw [hpc]; simp) (by dsimp only; split <;> rfl) rfl rfl ?_ ?_ ?_ ?_
  · rfl
  · intro i _
    rfl
  · intro page entry hpage hne hother
    exact hother.other hk haligned hpage hne
  · rw [CreateCall.Progress]
    dsimp only
    have hnext := hpushed.next hk
    by_cases hlast : k = 8
    · subst hlast
      exact ⟨hstack, heip, by omega, hnext⟩
    · rw [if_neg hlast]
      refine ⟨hstack, heip, by omega, ?_, hnext⟩
      simp only [pageSize] at haligned
      omega

theorem PreemptInv.exec_quiet {cur : Nat} {s : Preempt Pages} (hinv : PreemptInv src cur s)
    {c : CreateCall} (hc : s.call cur = some c) (hpc : c.pc.exposed = false) {table' : ProcTable}
    {call' : Option CreateCall} (hexec : c.exec src s.table s.pages = (table', s.pages, call'))
    (hagree : Agree s.table table')
    (hcall : ∀ x, call' = some x → x.pc.exposed = false ∧
      ((∃ i, x.pc = .search i) ∨ x.slot < maxProcesses ∧ x.slot ≠ cur) ∧
      (x.pc.holds = true → x.page ≠ 0 ∧ c.pc.holds = true ∧ x.page = c.page)) :
    PreemptInv src cur (s.exec src cur c) := by
  have hesp : c.pc ≠ .setEsp := by
    intro h
    rw [h] at hpc
    cases hpc
  rw [Preempt.exec_eq cur hesp hexec]
  apply hinv.quiet hagree
  · intro d hd
    obtain rfl := Option.some.inj (hc.symm.trans hd)
    exact hpc
  · intro x hx
    obtain ⟨hexposed, hslot, hholds⟩ := hcall x hx
    refine ⟨hexposed, hslot, ?_⟩
    intro h
    obtain ⟨hzero, hcholds, hpage⟩ := hholds h
    exact ⟨hzero, c, hc, hcholds, hpage⟩

theorem PreemptInv.search {cur : Nat} {s : Preempt Pages} (hinv : PreemptInv src cur s)
    {c : CreateCall} (hc : s.call cur = some c) {i : Nat} (hpc : c.pc = .search i) :
    PreemptInv src cur (s.exec src cur c) := by
  have hexec : c.exec src s.table s.pages = (s.table, s.pages,
      if i < maxProcesses then
        if (s.table.proc i).state = .unused then some { c with slot := i, pc := .takePage }
        else some { c with pc := .search (i + 1) }
      else none) := by
    rw [CreateCall.exec, hpc]
    dsimp only
    split
    · split <;> rfl
    · rfl
  apply hinv.exec_quiet hc (by rw [hpc]; rfl) hexec (.refl _)
  intro x hx
  by_cases hi : i < maxProcesses
  · rw [if_pos hi] at hx
    by_cases hunused : (s.table.proc i).state = .unused
    · rw [if_pos hunused] at hx
      obtain rfl := Option.some.inj hx
      refine ⟨rfl, .inr ⟨hi, ?_⟩, fun h => by cases h⟩
      rintro rfl
      rw [hinv.running] at hunused
      cases hunused
    · rw [if_neg hunused] at hx
      obtain rfl := Option.some.inj hx
      exact ⟨rfl, .inl ⟨i + 1, rfl⟩, fun h => by cases h⟩
  · rw [if_neg hi] at hx
    cases hx

theorem PreemptInv.testPage {cur : Nat} {s : Preempt Pages} (hinv : PreemptInv src cur s)
    {c : CreateCall} (hc : s.call cur = some c) (hpc : c.pc = .testPage) :
    PreemptInv src cur (s.exec src cur c) := by
  have hexec : c.exec src s.table s.pages =
      (s.table, s.pages, if c.page = 0 then none else some { c with pc := .setPid }) := by
    rw [CreateCall.exec, hpc]
  have hrange := hinv.slot_range hc fun i => by rw [hpc]; simp
  apply hinv.exec_quiet hc (by rw [hpc]; rfl) hexec (.refl _)
  intro x hx
  by_cases hzero : c.page = 0
  · rw [if_pos hzero] at hx
    cases hx
  · rw [if_neg hzero] at hx
    obtain rfl := Option.some.inj hx
    exact ⟨rfl, .inr hrange, fun _ => ⟨hzero, by rw [hpc]; rfl, rfl⟩⟩

theorem PreemptInv.setPid {cur : Nat} {s : Preempt Pages} (hinv : PreemptInv src cur s)
    {c : CreateCall} (hc : s.call cur = some c) (hpc : c.pc = .setPid) :
    PreemptInv src cur (s.exec src cur c) := by
  have hexec : c.exec src s.table s.pages =
      ({ c.write s.table (fun p => { p with pid := s.table.nextPid }) with
        nextPid := (s.table.nextPid + 1) % 2 ^ 32 }, s.pages,
          some { c with pc := .setState }) := by
    rw [CreateCall.exec, hpc]
  have hrange := hinv.slot_range hc fun i => by rw [hpc]; simp
  have hholds : c.pc.holds = true := by rw [hpc]; rfl
  have hagree := c.write_agree s.table (fun p => { p with pid := s.table.nextPid })
    (fun _ => rfl) (fun _ => rfl) (fun _ => rfl) (fun _ => rfl)
  apply hinv.exec_quiet hc (by rw [hpc]; rfl) hexec ⟨hagree.current, hagree.word,
    hagree.state, hagree.esp, hagree.eip, hagree.kernelStack⟩
  intro x hx
  obtain rfl := Option.some.inj hx
  have hzero := (hinv.held cur c hc hholds).2 (by rw [hpc]; simp)
  exact ⟨rfl, .inr hrange, fun _ => ⟨hzero, hholds, rfl⟩⟩

theorem PreemptInv.setName {cur : Nat} {s : Preempt Pages} (hinv : PreemptInv src cur s)
    {c : CreateCall} (hc : s.call cur = some c) {i : Nat} (hpc : c.pc = .setName i) :
    PreemptInv src cur (s.exec src cur c) := by
  have hexec : c.exec src s.table s.pages = (s.table, s.pages, some { c with
      pc := if i < c.name.length ∧ i < 15 then .setName (i + 1) else .endName i }) := by
    rw [CreateCall.exec, hpc]
  have hrange := hinv.slot_range hc fun i => by rw [hpc]; simp
  apply hinv.exec_quiet hc (by rw [hpc]; rfl) hexec (.refl _)
  intro x hx
  obtain rfl := Option.some.inj hx
  refine ⟨by dsimp only; split <;> rfl, .inr hrange, ?_⟩
  intro h
  dsimp only at h
  split at h <;> cases h

theorem PreemptInv.endName {cur : Nat} {s : Preempt Pages} (hinv : PreemptInv src cur s)
    {c : CreateCall} (hc : s.call cur = some c) {i : Nat} (hpc : c.pc = .endName i) :
    PreemptInv src cur (s.exec src cur c) := by
  have hexec : c.exec src s.table s.pages =
      (c.write s.table fun p => { p with name := c.name.take i }, s.pages, none) := by
    rw [CreateCall.exec, hpc]
  have hagree := c.write_agree s.table (fun p => { p with name := c.name.take i })
    (fun _ => rfl) (fun _ => rfl) (fun _ => rfl) (fun _ => rfl)
  apply hinv.exec_quiet hc (by rw [hpc]; rfl) hexec hagree
  intro x hx
  cases hx

theorem PreemptInv.exec_write {cur : Nat} {s : Preempt Pages} (hinv : PreemptInv src cur s)
    {c : CreateCall} (hc : s.call cur = some c) (hholds : c.pc.holds = true)
    (htest : c.pc ≠ .testPage) (hesp : c.pc ≠ .setEsp) (pc : CreatePc) (hx : pc.exposed = true)
    (f : Process → Process)
    (hexec : c.exec src s.table s.pages = (c.write s.table f, s.pages, some { c with pc := pc }))
    (hprogress : { c with pc := pc }.Progress (c.write s.table f)) :
    PreemptInv src cur (s.exec src cur c) := by
  rw [Preempt.exec_eq cur hesp hexec]
  exact hinv.inside (x := { c with pc := pc }) hc hholds htest hx rfl rfl rfl (c.write_off _ f)
    (fun _ _ _ _ h => h) hprogress

theorem PreemptInv.advance {cur : Nat} {s : Preempt Pages} (hinv : PreemptInv src cur s)
    {c : CreateCall} (hc : s.call cur = some c) : PreemptInv src cur (s.exec src cur c) := by
  have hprogress := hinv.progress c hc
  cases hpc : c.pc with
  | search i => exact hinv.search hc hpc
  | takePage =>
      have hexec : c.exec src s.table s.pages = (s.table, (src.alloc s.pages).2,
          some { c with page := (src.alloc s.pages).1, pc := .testPage }) := by
        rw [CreateCall.exec, hpc]
      rw [Preempt.exec_eq cur (by rw [hpc]; simp) hexec]
      exact hinv.takePage hc hpc rfl rfl rfl
  | testPage => exact hinv.testPage hc hpc
  | setPid => exact hinv.setPid hc hpc
  | setState =>
      apply hinv.exec_write hc (by rw [hpc]; rfl) (by rw [hpc]; simp) (by rw [hpc]; simp)
        .setKernelStack rfl fun p => { p with state := .ready }
      · rw [CreateCall.exec, hpc]
      · trivial
  | setKernelStack =>
      apply hinv.exec_write hc (by rw [hpc]; rfl) (by rw [hpc]; simp) (by rw [hpc]; simp)
        .setEip rfl fun p => { p with kernelStack := c.page }
      · rw [CreateCall.exec, hpc]
      · rw [CreateCall.Progress]
        dsimp only
        rw [c.write_at]
  | setEip =>
      rw [CreateCall.Progress, hpc] at hprogress
      apply hinv.exec_write hc (by rw [hpc]; rfl) (by rw [hpc]; simp) (by rw [hpc]; simp)
        .setPageDirectory rfl fun p => { p with eip := c.entry }
      · rw [CreateCall.exec, hpc]
      · rw [CreateCall.Progress]
        dsimp only
        rw [c.write_at]
        exact ⟨hprogress, rfl⟩
  | setPageDirectory =>
      rw [CreateCall.Progress, hpc] at hprogress
      apply hinv.exec_write hc (by rw [hpc]; rfl) (by rw [hpc]; simp) (by rw [hpc]; simp)
        .setSp rfl fun p => { p with pageDirectory := 0 }
      · rw [CreateCall.exec, hpc]
      · rw [CreateCall.Progress]
        dsimp only
        rw [c.write_at]
        exact hprogress
  | setSp =>
      have hexec : c.exec src s.table s.pages = (s.table, s.pages,
          some { c with sp := (c.page + pageSize) % 2 ^ 32, pc := .push 0 }) := by
        rw [CreateCall.exec, hpc]
      rw [CreateCall.Progress, hpc] at hprogress
      rw [Preempt.exec_eq cur (by rw [hpc]; simp) hexec]
      refine hinv.inside (x := { c with sp := (c.page + pageSize) % 2 ^ 32, pc := .push 0 }) hc
        (by rw [hpc]; rfl) (by rw [hpc]; simp) rfl rfl rfl rfl (fun _ _ => rfl)
        (fun _ _ _ _ h => h) ?_
      rw [CreateCall.Progress]
      exact ⟨hprogress.1, hprogress.2, by decide, rfl, fun j hj => by omega⟩
  | push k => exact hinv.push hc hpc
  | setEsp =>
      have hexec : c.exec src s.table s.pages =
          (c.write s.table fun p => { p with esp := c.sp }, s.pages,
            some { c with pc := .setName 0 }) := by
        rw [CreateCall.exec, hpc]
      rw [Preempt.exec, hexec]
      dsimp only
      rw [if_pos hpc]
      exact hinv.setEsp (x := { c with pc := .setName 0 }) hc hpc rfl rfl rfl rfl rfl
        (c.write_proc _ _)
  | setName i => exact hinv.setName hc hpc
  | endName i => exact hinv.endName hc hpc

theorem PreemptInv.step {cur : Nat} {s s' : Preempt Pages} {op : PreemptOp}
    (hinv : PreemptInv src cur s) (hsealed : Sealed s op) (hstep : preemptStep src s op s') :
    ∃ next, PreemptInv src next s' := by
  cases op with
  | call name entry =>
      obtain ⟨cur', hcur, hnone, rfl⟩ := hstep
      obtain rfl : cur = cur' := Option.some.inj (hinv.current.symm.trans hcur)
      refine ⟨cur, hinv.quiet (.refl _) ?_ ?_⟩
      · intro c hc
        rw [hnone] at hc
        cases hc
      · intro x hx
        obtain rfl := Option.some.inj hx
        exact ⟨rfl, .inl ⟨0, rfl⟩, fun h => by cases h⟩
  | advance =>
      obtain ⟨cur', c, hcur, hc, rfl⟩ := hstep
      obtain rfl : cur = cur' := Option.some.inj (hinv.current.symm.trans hcur)
      exact ⟨cur, hinv.advance hc⟩
  | tick esp =>
      obtain rfl : s' = s.tick esp := hstep
      exact hinv.tick esp fun c hc => hsealed cur c hinv.current hc

/-- In every run without a tick inside the exposed statements, each process that `schedule`
selects has a complete context. -/
theorem preemptRun_complete (src : PageSource Pages) (start : ProcTable)
    (hstart : start.nextPid = 0) (pages : Pages) (ops : List PreemptOp) (s s' : Preempt Pages)
    (esp old next : Nat)
    (hrun : Run (guarded Sealed (preemptStep src)) (Preempt.boot start pages) ops s)
    (htick : guarded Sealed (preemptStep src) s (.tick esp) s')
    (hselect : (scheduleSelect s.table).1 = some (old, next)) : CompleteContext s next := by
  have hstep : ∀ t op t', (∃ cur, PreemptInv src cur t) → guarded Sealed (preemptStep src) t op t' →
      ∃ cur, PreemptInv src cur t' := by
    rintro t op t' ⟨cur, hinv⟩ ⟨hsealed, hstep⟩
    exact hinv.step hsealed hstep
  obtain ⟨cur, hinv⟩ := hrun.invariant hstep ⟨0, .boot start hstart pages⟩
  rcases scheduleSelect_cases s.table with ⟨hnone, -⟩ | ⟨cur', next', hcur, hnext, -, hsome⟩
  · rw [hnone] at hselect
    cases hselect
  · rw [hsome, Option.some.injEq, Prod.mk.injEq] at hselect
    obtain ⟨rfl, rfl⟩ := hselect
    obtain ⟨hready, hlt⟩ := ProcTable.nextReady_some hnext
    rcases hinv.complete next' hlt hready (fun c hc hexposed => by
      rw [htick.1 cur c hinv.current hc] at hexposed
      cases hexposed) with hsaved | hwaiting
    · exact .inr hsaved
    · exact .inl hwaiting.frame

theorem Run.advance {start s : Preempt Pages} {ops : List PreemptOp} {c : CreateCall}
    (hrun : Run (guarded Sealed (preemptStep src)) start ops s)
    (hcur : s.table.current = some 0) (hc : s.call 0 = some c) :
    Run (guarded Sealed (preemptStep src)) start (ops ++ [.advance]) (s.exec src 0 c) :=
  .snoc hrun ⟨trivial, 0, c, hcur, hc, rfl⟩

theorem run_firstCreate (src : PageSource Pages) (pages : Pages)
    (hpage : (src.alloc pages).1 ≠ 0) (name : List UInt8) (entry : Nat) :
    (∃ ops s, Run (guarded Sealed (preemptStep src)) (Preempt.boot zeroTable pages) ops s ∧
      (scheduleSelect s.table).1 = some (0, 1) ∧ (s.table.proc 1).esp = 0 ∧
      (s.table.proc 1).kernelStack = 0 ∧ s.saved 1 = none) ∧
    ∃ ops s, Run (guarded Sealed (preemptStep src)) (Preempt.boot zeroTable pages) ops s ∧
      (scheduleSelect s.table).1 = some (0, 1) ∧ Sealed s (.tick 0) := by
  have hcall : Run (guarded Sealed (preemptStep src)) (Preempt.boot zeroTable pages)
      [.call name entry] { Preempt.boot zeroTable pages with
        call := Function.update (fun _ => none) 0 (some (.start name entry)) } :=
    .snoc (.nil _) ⟨trivial, 0, rfl, rfl, rfl⟩
  have hfound := Run.advance (Run.advance hcall rfl rfl) rfl rfl
  have htaken := Run.advance hfound rfl rfl
  have htested := Run.advance htaken rfl rfl
  have hpid := Run.advance (c := ⟨name, entry, 1, (src.alloc pages).1, 0, .setPid⟩) htested rfl
    (if_neg hpage)
  have hready := Run.advance hpid rfl rfl
  have hstack := Run.advance hready rfl rfl
  have heip := Run.advance hstack rfl rfl
  have hdirectory := Run.advance heip rfl rfl
  have hsp := Run.advance hdirectory rfl rfl
  have hpush := Run.advance (Run.advance (Run.advance hsp rfl rfl) rfl rfl) rfl rfl
  have hpush' := Run.advance (Run.advance (Run.advance hpush rfl rfl) rfl rfl) rfl rfl
  have hpushed := Run.advance (Run.advance (Run.advance hpush' rfl rfl) rfl rfl) rfl rfl
  have hesp := Run.advance hpushed rfl rfl
  refine ⟨⟨_, _, hready, rfl, rfl, rfl, rfl⟩, ⟨_, _, hesp, rfl, ?_⟩⟩
  intro cur c hcur hc
  obtain rfl := Option.some.inj hcur
  obtain rfl := Option.some.inj hc
  rfl

/-- The timer after the whole frame is built. -/
theorem preemptRun_complete_created :
    zeroTable.nextPid = 0 ∧ ∃ ops s s',
      Run (guarded Sealed (preemptStep pmmPool)) (Preempt.boot zeroTable bootPool) ops s ∧
      guarded Sealed (preemptStep pmmPool) s (.tick 0) s' ∧
      (scheduleSelect s.table).1 = some (0, 1) ∧ CompleteContext s 1 := by
  obtain ⟨-, ops, s, hrun, hselect, hsealed⟩ :=
    run_firstCreate pmmPool bootPool bootPool_alloc_ne_zero [] 0x8000
  have htick : guarded Sealed (preemptStep pmmPool) s (.tick 0) (s.tick 0) := ⟨hsealed, rfl⟩
  exact ⟨rfl, ops, s, s.tick 0, hrun, htick, hselect,
    preemptRun_complete pmmPool zeroTable rfl bootPool ops s _ 0 0 1 hrun htick hselect⟩

/-- The timer right after the slot is made ready: its stack pointer is still zero. -/
theorem preemptRun_incomplete :
    ¬ ∀ (ops : List PreemptOp) (s s' : Preempt { bitmap : Bitmap // 0 ∉ freePages bitmap })
        (esp old next : Nat),
      Run (preemptStep pmmPool) (Preempt.boot zeroTable bootPool) ops s →
      preemptStep pmmPool s (.tick esp) s' →
      (scheduleSelect s.table).1 = some (old, next) → CompleteContext s next := by
  intro hall
  obtain ⟨⟨ops, s, hrun, hselect, hesp, hstack, hsaved⟩, -⟩ :=
    run_firstCreate pmmPool bootPool bootPool_alloc_ne_zero [] 0x8000
  have hunguarded := hrun.mono fun _ _ _ h => h.2
  rcases hall ops s _ 0 0 1 hunguarded rfl hselect with hframe | hlast
  · have htop := hframe.1
    rw [hesp, hstack] at htop
    omega
  · rw [hsaved] at hlast
    cases hlast

end Magnos
