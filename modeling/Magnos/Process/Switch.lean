import Magnos.Framework.Stack
import Magnos.Process.Table

/-!
# Switching processes

`context_switch` executed instruction by instruction on a processor with byte memory.  The stack
pointers of the process table are in memory, where `context_switch` writes them; the other fields
of the table are kept apart.

A process that is switched out has a frame of nine words at its saved stack pointer.  The running
process may change every register and all memory but those frames and the table.
-/

namespace Magnos

open Framework

variable {Pages : Type}

/-- The general registers but `esp`. -/
structure Regs where
  eax : UInt32
  ecx : UInt32
  edx : UInt32
  ebx : UInt32
  ebp : UInt32
  esi : UInt32
  edi : UInt32
deriving DecidableEq

/-- Where and with what a process goes on. -/
structure Context where
  regs : Regs
  esp : UInt32
  eip : UInt32
deriving DecidableEq

structure Cpu extends Context where
  mem : Memory

/-- The instructions of `switch.asm`; the offsets of `mov` are from `esp`. -/
inductive Instr where
  | pusha
  | movEax (off : UInt32)
  | movEcx (off : UInt32)
  | storeEsp
  | movEsp
  | popa
  | sti
  | ret
deriving DecidableEq

/-- `push` for each word in turn. -/
def Cpu.push (c : Cpu) (ws : List UInt32) : Cpu :=
  { c with mem := (c.mem.pushAll c.esp ws).1, esp := (c.mem.pushAll c.esp ws).2 }

/-- `pusha` pushes the `esp` from before it; `popa` skips that word. -/
def Cpu.exec (c : Cpu) : Instr → Cpu
  | .pusha =>
      c.push [c.regs.eax, c.regs.ecx, c.regs.edx, c.regs.ebx, c.esp, c.regs.ebp, c.regs.esi,
        c.regs.edi]
  | .movEax off => { c with regs := { c.regs with eax := c.mem.loadWord (c.esp + off) } }
  | .movEcx off => { c with regs := { c.regs with ecx := c.mem.loadWord (c.esp + off) } }
  | .storeEsp => { c with mem := c.mem.storeWord c.regs.eax c.esp }
  | .movEsp => { c with esp := c.regs.ecx }
  | .popa =>
      { c with
        regs :=
          { edi := c.mem.loadWord c.esp
            esi := c.mem.loadWord (c.esp + 4)
            ebp := c.mem.loadWord (c.esp + 8)
            ebx := c.mem.loadWord (c.esp + 16)
            edx := c.mem.loadWord (c.esp + 20)
            ecx := c.mem.loadWord (c.esp + 24)
            eax := c.mem.loadWord (c.esp + 28) }
        esp := c.esp + 32 }
  | .sti => c
  | .ret => { c with eip := c.mem.loadWord c.esp, esp := c.esp + 4 }

def contextSwitch : List Instr :=
  [.pusha, .movEax 36, .movEcx 40, .storeEsp, .movEsp, .popa, .sti, .ret]

/-- `context_switch(old_esp, new_esp)`, called from before `ret`. -/
def Cpu.callContextSwitch (c : Cpu) (oldEsp newEsp ret : UInt32) : Cpu :=
  contextSwitch.foldl Cpu.exec ((c.push [newEsp, oldEsp]).push [ret])

/-- The words that the call and `pusha` leave on the stack. -/
def switchWords (c : Cpu) (oldEsp newEsp ret : UInt32) : List UInt32 :=
  [newEsp, oldEsp, ret, c.regs.eax, c.regs.ecx, c.regs.edx, c.regs.ebx, c.esp - 12, c.regs.ebp,
    c.regs.esi, c.regs.edi]

/-- The words of a frame, with what `popa` skips. -/
def Context.frame (x : Context) (skipped : UInt32) : List UInt32 :=
  [x.regs.edi, x.regs.esi, x.regs.ebp, skipped, x.regs.ebx, x.regs.edx, x.regs.ecx, x.regs.eax, x.eip]

/-- A stack pointer at the frame of a context. -/
def FrameAt (mem : Memory) (sp : UInt32) (x : Context) : Prop :=
  x.esp = sp + 36 ∧ ∃ skipped, ∀ i w, (x.frame skipped)[i]? = some w →
    mem.loadWord (sp + .ofNat (4 * i)) = w

theorem FrameAt.congr {mem mem' : Memory} {sp : UInt32} {x : Context} (hframe : FrameAt mem sp x)
    (hsame : ∀ a, Covers sp 36 a → mem' a = mem a) : FrameAt mem' sp x := by
  obtain ⟨hesp, skipped, hwords⟩ := hframe
  refine ⟨hesp, skipped, ?_⟩
  intro i w hi
  have hlt : i < 9 := (List.getElem?_eq_some_iff.mp hi).1
  rw [← hwords i w hi]
  apply Memory.loadWord_congr
  intro a hcover
  exact hsame a (hcover.within (by omega) (by decide))

theorem FrameAt.restore {c : Cpu} {x : Context} (hframe : FrameAt c.mem c.esp x) :
    ((c.exec .popa).exec .sti).exec .ret = { toContext := x, mem := c.mem } := by
  obtain ⟨hesp, skipped, hwords⟩ := hframe
  have hedi : c.mem.loadWord (c.esp + 0) = _ := hwords 0 _ rfl
  have hesi : c.mem.loadWord (c.esp + 4) = _ := hwords 1 _ rfl
  have hebp : c.mem.loadWord (c.esp + 8) = _ := hwords 2 _ rfl
  have hebx : c.mem.loadWord (c.esp + 16) = _ := hwords 4 _ rfl
  have hedx : c.mem.loadWord (c.esp + 20) = _ := hwords 5 _ rfl
  have hecx : c.mem.loadWord (c.esp + 24) = _ := hwords 6 _ rfl
  have heax : c.mem.loadWord (c.esp + 28) = _ := hwords 7 _ rfl
  have heip : c.mem.loadWord (c.esp + 32) = _ := hwords 8 _ rfl
  have htop : c.esp + 32 + 4 = x.esp := by
    rw [hesp, UInt32.add_assoc]
    rfl
  rw [UInt32.add_zero] at hedi
  simp only [Cpu.exec, hedi, hesi, hebp, hebx, hedx, hecx, heax, heip, htop]

/-- The memory after `context_switch`. -/
def switchMemory (c : Cpu) (oldEsp newEsp ret : UInt32) : Memory :=
  (c.mem.pushAll c.esp (switchWords c oldEsp newEsp ret)).1.storeWord oldEsp (c.esp - 44)

theorem Cpu.push_push (c : Cpu) (ws ws' : List UInt32) : (c.push ws).push ws' = c.push (ws ++ ws') := by
  simp only [Cpu.push, Memory.pushAll_append]

theorem Cpu.push_esp (c : Cpu) (ws : List UInt32) :
    (c.push ws).esp = c.esp - .ofNat (4 * ws.length) :=
  Memory.pushAll_sp ..

theorem Cpu.call_pusha (c : Cpu) (oldEsp newEsp ret : UInt32) :
    ((c.push [newEsp, oldEsp]).push [ret]).exec .pusha = c.push (switchWords c oldEsp newEsp ret) := by
  have hesp : (c.push [newEsp, oldEsp, ret]).esp = c.esp - 12 := c.push_esp _
  rw [Cpu.push_push, Cpu.exec, List.cons_append, List.cons_append, List.nil_append, hesp,
    Cpu.push_push]
  rfl

theorem Cpu.callContextSwitch_eq (c : Cpu) (oldEsp newEsp ret : UInt32) {x : Context}
    (hframe : FrameAt (switchMemory c oldEsp newEsp ret) newEsp x) :
    c.callContextSwitch oldEsp newEsp ret =
      { toContext := x, mem := switchMemory c oldEsp newEsp ret } := by
  have hfits : 4 * (switchWords c oldEsp newEsp ret).length ≤ 2 ^ 32 :=
    show 4 * 11 ≤ 2 ^ 32 by decide
  have hold : (c.push (switchWords c oldEsp newEsp ret)).mem.loadWord
      ((c.push (switchWords c oldEsp newEsp ret)).esp + 36) = oldEsp :=
    Memory.pushAll_load c.mem c.esp (switchWords c oldEsp newEsp ret) (i := 9) hfits rfl
  have hnew : (c.push (switchWords c oldEsp newEsp ret)).mem.loadWord
      ((c.push (switchWords c oldEsp newEsp ret)).esp + 40) = newEsp :=
    Memory.pushAll_load c.mem c.esp (switchWords c oldEsp newEsp ret) (i := 10) hfits rfl
  have hesp : (c.push (switchWords c oldEsp newEsp ret)).esp = c.esp - 44 := c.push_esp _
  have hmem : switchMemory c oldEsp newEsp ret =
      (c.push (switchWords c oldEsp newEsp ret)).mem.storeWord oldEsp (c.esp - 44) := rfl
  rw [Cpu.callContextSwitch, contextSwitch, List.foldl_cons, Cpu.call_pusha]
  rw [hmem] at hframe ⊢
  generalize c.push (switchWords c oldEsp newEsp ret) = d at hold hnew hesp hframe ⊢
  have heax : d.exec (.movEax 36) = { d with regs := { d.regs with eax := oldEsp } } := by
    rw [Cpu.exec, hold]
  have hecx : ({ d with regs := { d.regs with eax := oldEsp } } : Cpu).exec (.movEcx 40) =
      { d with regs := { d.regs with eax := oldEsp, ecx := newEsp } } := by
    rw [Cpu.exec, hnew]
  rw [List.foldl_cons, heax, List.foldl_cons, hecx, ← hesp]
  rw [← hesp] at hframe
  exact FrameAt.restore (c := { d with
    regs := { d.regs with eax := oldEsp, ecx := newEsp }
    mem := d.mem.storeWord oldEsp d.esp
    esp := newEsp }) hframe

theorem frameAt_switchMemory (c : Cpu) (oldEsp newEsp ret : UInt32)
    (hapart : ∀ a, Covers (c.esp - 44) 44 a → ¬ Covers oldEsp 4 a) :
    FrameAt (switchMemory c oldEsp newEsp ret) (c.esp - 44) ⟨c.regs, c.esp - 8, ret⟩ := by
  have hfits : 4 * (switchWords c oldEsp newEsp ret).length ≤ 2 ^ 32 :=
    show 4 * 11 ≤ 2 ^ 32 by decide
  have hesp : (c.mem.pushAll c.esp (switchWords c oldEsp newEsp ret)).2 = c.esp - 44 :=
    Memory.pushAll_sp ..
  have hpushed : FrameAt (c.mem.pushAll c.esp (switchWords c oldEsp newEsp ret)).1 (c.esp - 44)
      ⟨c.regs, c.esp - 8, ret⟩ := by
    refine ⟨?_, c.esp - 12, ?_⟩
    · show c.esp - 8 = c.esp - 44 + 36
      grind
    · intro i w hi
      have hlt : i < 9 := (List.getElem?_eq_some_iff.mp hi).1
      rw [← hesp]
      apply Memory.pushAll_load _ _ _ hfits
      have hreverse : (switchWords c oldEsp newEsp ret).reverse =
          Context.frame ⟨c.regs, c.esp - 8, ret⟩ (c.esp - 12) ++ [oldEsp, newEsp] := rfl
      rw [hreverse, List.getElem?_append_left hlt]
      exact hi
  apply hpushed.congr
  intro a hcover
  exact Memory.storeWord_of_outside _ _ (hapart a (hcover.mono (by decide)))

/-- The processor with the process table; the table's stack pointers are in memory. -/
structure SwitchState (Pages : Type) where
  cpu : Cpu
  table : ProcTable
  pages : Pages

/-- The address of `proc_table[slot].esp`. -/
def espField (base : UInt32) (slot : Nat) : UInt32 := base + .ofNat (40 * slot + 24)

def SwitchState.savedEsp (base : UInt32) (s : SwitchState Pages) (slot : Nat) : UInt32 :=
  s.cpu.mem.loadWord (espField base slot)

/-- What the running process must leave alone: the process table and the frames of the
processes that are switched out. -/
def Protected (base : UInt32) (s : SwitchState Pages) (a : UInt32) : Prop :=
  Covers base (40 * maxProcesses) a ∨
    ∃ i < maxProcesses, s.table.current ≠ some i ∧ (s.table.proc i).state ≠ .unused ∧
      Covers (s.savedEsp base i) 36 a

/-- The context that a process starts with. -/
def initialContext (page entry : UInt32) : Context := ⟨⟨0, 0, 0, 0, 0, 0, 0⟩, page + 4096, entry⟩

inductive SwitchEvent where
  | run
  | create (slot : Nat) (page entry : UInt32)
  | refuse
  | switch (old : Nat) (out : Context) (next : Nat) (into : Context)
  | stay

/-- `process_create` fills a slot. -/
def SwitchState.create (src : PageSource Pages) (base : UInt32) (s : SwitchState Pages) (slot : Nat)
    (page : UInt32) (name : List UInt8) (entry : UInt32) : SwitchState Pages :=
  let (mem, sp) := s.cpu.mem.pushAll (page + 4096) [entry, 0, 0, 0, 0, 0, 0, 0, 0]
  let (_, table, pages) := processCreate src s.table s.pages name entry.toNat
  ⟨{ s.cpu with mem := mem.storeWord (espField base slot) sp }, table, pages⟩

/-- `schedule` calls `context_switch(&old->esp, new->esp)`. -/
def SwitchState.switch (base : UInt32) (s : SwitchState Pages) (old next : Nat) (ret : UInt32) :
    SwitchState Pages :=
  let cpu := s.cpu.callContextSwitch (espField base old) (s.savedEsp base next) ret
  ⟨cpu, schedule s.table (cpu.mem.loadWord (espField base old)).toNat, s.pages⟩

/-- The running process changes registers and memory, `process_create` returns a process or
fails, and `schedule` switches or returns.  `out` is the context of the old process at the call
of `context_switch` and `into` the one in which the new process goes on. -/
def switchStep (src : PageSource Pages) (base : UInt32) (s : SwitchState Pages) :
    SwitchEvent → SwitchState Pages → Prop
  | .run, s' => s'.table = s.table ∧ ∀ a, Protected base s a → s'.cpu.mem a = s.cpu.mem a
  | .create slot page entry, s' => ∃ name,
      (List.range maxProcesses).find? (fun i => (s.table.proc i).state = .unused) = some slot ∧
      (src.alloc s.pages).1 = page.toNat ∧ page ≠ 0 ∧
      (∀ a, Covers (page + 4060) 36 a → ¬ Protected base s a) ∧
      s' = s.create src base slot page name entry
  | .refuse, s' => ∃ name entry pages,
      processCreate src s.table s.pages name entry = (-1, s.table, pages) ∧
      s' = { s with pages := pages }
  | .switch old out next into, s' => ∃ ret,
      (scheduleSelect s.table).1 = some (old, next) ∧
      (∀ a, Covers (s.cpu.esp - 44) 44 a → ¬ Protected base s a) ∧
      s' = s.switch base old next ret ∧
      out = ⟨s.cpu.regs, s.cpu.esp - 8, ret⟩ ∧ into = s'.cpu.toContext
  | .stay, s' => (scheduleSelect s.table).1 = none ∧ s' = s

/-- The context in which an event leaves a slot. -/
def SwitchEvent.leaves (slot : Nat) : SwitchEvent → Option Context
  | .create slot' page entry => if slot' = slot then some (initialContext page entry) else none
  | .switch old out _ _ => if old = slot then some out else none
  | _ => none

/-- The context in which a slot was left last. -/
def lastContext (slot : Nat) (events : List SwitchEvent) : Option Context :=
  events.foldl (fun x event => (event.leaves slot).or x) none

theorem lastContext_snoc (slot : Nat) (events : List SwitchEvent) (event : SwitchEvent) :
    lastContext slot (events ++ [event]) = (event.leaves slot).or (lastContext slot events) := by
  rw [lastContext, List.foldl_append]
  rfl

/-- A process that is switched out has the frame of its last context, outside the table. -/
structure Parked (base : UInt32) (events : List SwitchEvent) (s : SwitchState Pages) (i : Nat) :
    Prop where
  frame : ∃ x, lastContext i events = some x ∧ FrameAt s.cpu.mem (s.savedEsp base i) x
  outside : ∀ a, Covers (s.savedEsp base i) 36 a → ¬ Covers base (40 * maxProcesses) a

structure SwitchInv (base : UInt32) (cur : Nat) (events : List SwitchEvent)
    (s : SwitchState Pages) : Prop where
  current : s.table.current = some cur
  cur_lt : cur < maxProcesses
  running : (s.table.proc cur).state = .running
  parked : ∀ i < maxProcesses, i ≠ cur → (s.table.proc i).state ≠ .unused → Parked base events s i

theorem espField_covers {base a : UInt32} {slot : Nat} (hslot : slot < maxProcesses)
    (hcover : Covers (espField base slot) 4 a) : Covers base (40 * maxProcesses) a := by
  simp only [maxProcesses] at *
  exact hcover.within (by omega) (by decide)

theorem espField_apart {base a : UInt32} {slot slot' : Nat} (hslot : slot < maxProcesses)
    (hslot' : slot' < maxProcesses) (hne : slot ≠ slot') (hcover : Covers (espField base slot) 4 a) :
    ¬ Covers (espField base slot') 4 a := by
  simp only [maxProcesses] at hslot hslot'
  intro hcover'
  have hdist := hcover.distance (by omega)
  have hdist' := hcover'.distance (by omega)
  omega

theorem Parked.keep {base : UInt32} {events events' : List SwitchEvent} {s s' : SwitchState Pages}
    {i : Nat} (hparked : Parked base events s i) (hlast : lastContext i events' = lastContext i events)
    (hesp : ∀ a, Covers (espField base i) 4 a → s'.cpu.mem a = s.cpu.mem a)
    (hframe : ∀ a, Covers (s.savedEsp base i) 36 a → s'.cpu.mem a = s.cpu.mem a) :
    Parked base events' s' i := by
  have hsaved : s'.savedEsp base i = s.savedEsp base i := Memory.loadWord_congr hesp
  obtain ⟨x, hx, hat⟩ := hparked.frame
  refine ⟨⟨x, hlast.trans hx, ?_⟩, ?_⟩
  · rw [hsaved]
    exact hat.congr hframe
  · rw [hsaved]
    exact hparked.outside

theorem pushed_of_protected {base : UInt32} {s : SwitchState Pages} {slot : Nat} (sp v : UInt32)
    (ws : List UInt32) (hfits : 4 * ws.length ≤ 2 ^ 32)
    (hroom : ∀ a, Covers (sp - .ofNat (4 * ws.length)) (4 * ws.length) a → ¬ Protected base s a)
    {a : UInt32} (ha : Protected base s a) (hout : ¬ Covers (espField base slot) 4 a) :
    ((s.cpu.mem.pushAll sp ws).1.storeWord (espField base slot) v) a = s.cpu.mem a := by
  rw [Memory.storeWord_of_outside _ _ hout]
  exact Memory.pushAll_of_outside _ _ _ hfits fun hcover => hroom a hcover ha

theorem processCreate_of_find {src : PageSource Pages} {t : ProcTable} {pages : Pages} {slot : Nat}
    (hfind : (List.range maxProcesses).find? (fun i => (t.proc i).state = .unused) = some slot)
    (hpage : (src.alloc pages).1 ≠ 0) (name : List UInt8) (entry : Nat) :
    processCreate src t pages name entry =
      (toInt32 t.nextPid, t.created slot (src.alloc pages).1 name entry, (src.alloc pages).2) := by
  rw [processCreate, hfind]
  dsimp only
  rw [if_neg hpage]
  rfl

/-- The words of the frame that `process_create` builds. -/
def createWords (entry : UInt32) : List UInt32 := [entry, 0, 0, 0, 0, 0, 0, 0, 0]

/-- The memory after `process_create`. -/
def createMemory (mem : Memory) (base : UInt32) (slot : Nat) (page entry : UInt32) : Memory :=
  (mem.pushAll (page + 4096) (createWords entry)).1.storeWord (espField base slot) (page + 4060)

theorem page_sub (page : UInt32) : page + 4096 - .ofNat 36 = page + 4060 := by
  show page + 4096 - 36 = page + 4060
  grind

theorem SwitchState.create_eq {src : PageSource Pages} {base : UInt32} {s : SwitchState Pages}
    {slot : Nat} {page : UInt32}
    (hfind : (List.range maxProcesses).find? (fun i => (s.table.proc i).state = .unused) = some slot)
    (hpage : (src.alloc s.pages).1 = page.toNat) (hne : page ≠ 0) (name : List UInt8)
    (entry : UInt32) :
    s.create src base slot page name entry =
      ⟨{ s.cpu with mem := createMemory s.cpu.mem base slot page entry },
        s.table.created slot page.toNat name entry.toNat, (src.alloc s.pages).2⟩ := by
  have hzero : (src.alloc s.pages).1 ≠ 0 := by
    rw [hpage]
    exact fun h => hne (UInt32.toNat_inj.mp h)
  have hsp : (s.cpu.mem.pushAll (page + 4096) (createWords entry)).2 = page + 4060 :=
    (Memory.pushAll_sp ..).trans (page_sub page)
  rw [SwitchState.create, processCreate_of_find hfind hzero, hpage, createMemory, ← hsp]
  rfl

theorem frameAt_createWords (mem : Memory) (page entry : UInt32) :
    FrameAt (mem.pushAll (page + 4096) (createWords entry)).1 (page + 4060)
      (initialContext page entry) := by
  have hsp : (mem.pushAll (page + 4096) (createWords entry)).2 = page + 4060 :=
    (Memory.pushAll_sp ..).trans (page_sub page)
  refine ⟨?_, 0, ?_⟩
  · show page + 4096 = page + 4060 + 36
    grind
  · intro i w hi
    rw [← hsp]
    exact Memory.pushAll_load _ _ _ (show 4 * 9 ≤ 2 ^ 32 by decide) hi

theorem scheduleSelect_some {t : ProcTable} {old next : Nat}
    (hselect : (scheduleSelect t).1 = some (old, next)) :
    t.current = some old ∧ t.nextReady old = some next ∧ next ≠ old ∧
      ∀ esp, schedule t esp =
        (t.switchTo old next).setProc old { (t.switchTo old next).proc old with esp := esp } := by
  rcases scheduleSelect_cases t with ⟨hnone, -⟩ | ⟨cur, next', hcur, hnext, hne, hsome⟩
  · rw [hnone] at hselect
    cases hselect
  · rw [hsome, Option.some.injEq, Prod.mk.injEq] at hselect
    obtain ⟨rfl, rfl⟩ := hselect
    refine ⟨hcur, hnext, hne, ?_⟩
    intro esp
    rw [schedule, hsome]

namespace SwitchInv

variable {src : PageSource Pages} {base : UInt32} {cur : Nat} {events : List SwitchEvent}
  {s s' : SwitchState Pages}

theorem parked_keep (hinv : SwitchInv base cur events s) {events' : List SwitchEvent} {i slot : Nat}
    (hi : i < maxProcesses) (hcur : i ≠ cur) (hused : (s.table.proc i).state ≠ .unused)
    (hslot : slot < maxProcesses) (hne : i ≠ slot)
    (hlast : lastContext i events' = lastContext i events)
    (hmem : ∀ a, Protected base s a → ¬ Covers (espField base slot) 4 a →
      s'.cpu.mem a = s.cpu.mem a) : Parked base events' s' i := by
  have hparked := hinv.parked i hi hcur hused
  apply hparked.keep hlast
  · intro a hcover
    exact hmem a (.inl (espField_covers hi hcover)) (espField_apart hi hslot hne hcover)
  · intro a hcover
    apply hmem a
    · refine .inr ⟨i, hi, ?_, hused, hcover⟩
      rw [hinv.current]
      exact fun h => hcur (Option.some.inj h).symm
    · exact fun h => hparked.outside a hcover (espField_covers hslot h)

theorem boot (cpu : Cpu) (start : ProcTable) (pages : Pages) :
    SwitchInv base 0 [] ⟨cpu, processInit start, pages⟩ := by
  obtain ⟨-, hcurrent, hrunning, -, hunused⟩ := processInit_spec start
  refine ⟨hcurrent, by decide, hrunning, ?_⟩
  intro i hi hne hused
  exact absurd (hunused i (by omega) hi) hused

theorem run (hinv : SwitchInv base cur events s) (hstep : switchStep src base s .run s') :
    SwitchInv base cur (events ++ [.run]) s' := by
  obtain ⟨htable, hmem⟩ := hstep
  refine ⟨htable ▸ hinv.current, hinv.cur_lt, htable ▸ hinv.running, ?_⟩
  intro i hi hne hused
  rw [htable] at hused
  apply hinv.parked_keep hi hne hused hinv.cur_lt hne (lastContext_snoc ..)
  intro a ha _
  exact hmem a ha

theorem create (hinv : SwitchInv base cur events s) {slot : Nat} {page entry : UInt32}
    (hstep : switchStep src base s (.create slot page entry) s') :
    SwitchInv base cur (events ++ [.create slot page entry]) s' := by
  obtain ⟨name, hfind, hpage, hne, hroom, rfl⟩ := hstep
  obtain ⟨hslot, hunused, -⟩ := find_unused_some hfind
  have hcur : slot ≠ cur := by
    rintro rfl
    exact absurd (hunused.symm.trans hinv.running) (by decide)
  rw [← page_sub] at hroom
  rw [SwitchState.create_eq hfind hpage hne]
  have hproc : ∀ i, i ≠ slot →
      (s.table.created slot page.toNat name entry.toNat).proc i = s.table.proc i :=
    fun i hi => Function.update_of_ne hi ..
  refine ⟨hinv.current, hinv.cur_lt, ?_, ?_⟩
  · rw [hproc cur hcur.symm]
    exact hinv.running
  · intro i hi hicur hused
    by_cases his : i = slot
    · subst his
      have hsaved : SwitchState.savedEsp base
          ⟨{ s.cpu with mem := createMemory s.cpu.mem base i page entry },
            s.table.created i page.toNat name entry.toNat, (src.alloc s.pages).2⟩ i =
          page + 4060 := Memory.loadWord_storeWord ..
      refine ⟨⟨initialContext page entry, ?_, ?_⟩, ?_⟩
      · rw [lastContext_snoc, SwitchEvent.leaves, if_pos rfl]
        rfl
      · rw [hsaved]
        apply (frameAt_createWords s.cpu.mem page entry).congr
        intro a hcover
        apply Memory.storeWord_of_outside
        intro hfield
        rw [← page_sub] at hcover
        exact hroom a hcover (.inl (espField_covers hi hfield))
      · intro a hcover htable
        rw [hsaved, ← page_sub] at hcover
        exact hroom a hcover (.inl htable)
    · have hused' : (s.table.proc i).state ≠ .unused := by
        rw [← hproc i his]
        exact hused
      apply hinv.parked_keep hi hicur hused' hslot his
      · rw [lastContext_snoc, SwitchEvent.leaves, if_neg (Ne.symm his)]
        rfl
      · intro a ha hout
        exact pushed_of_protected (page + 4096) (page + 4060) (createWords entry)
          (show 4 * 9 ≤ 2 ^ 32 by decide) hroom ha hout

theorem switch_eq (hinv : SwitchInv base cur events s) {old next : Nat} (ret : UInt32)
    (hselect : (scheduleSelect s.table).1 = some (old, next))
    (hroom : ∀ a, Covers (s.cpu.esp - 44) 44 a → ¬ Protected base s a) :
    ∃ x, lastContext next events = some x ∧ s.switch base old next ret =
      ⟨{ toContext := x
         mem := switchMemory s.cpu (espField base old) (s.savedEsp base next) ret },
        schedule s.table (s.cpu.esp - 44).toNat, s.pages⟩ := by
  obtain ⟨hcur, hnext, hne, -⟩ := scheduleSelect_some hselect
  obtain rfl : cur = old := Option.some.inj (hinv.current.symm.trans hcur)
  obtain ⟨hready, hlt⟩ := ProcTable.nextReady_some hnext
  have hused : (s.table.proc next).state ≠ .unused := by
    rw [hready]
    decide
  have hparked := hinv.parked next hlt hne hused
  obtain ⟨x, hx, hframe⟩ := hparked.frame
  refine ⟨x, hx, ?_⟩
  have hkept : FrameAt (switchMemory s.cpu (espField base cur) (s.savedEsp base next) ret)
      (s.savedEsp base next) x := by
    apply hframe.congr
    intro a hcover
    apply pushed_of_protected s.cpu.esp (s.cpu.esp - 44) (switchWords s.cpu _ _ ret)
      (show 4 * 11 ≤ 2 ^ 32 by decide) hroom
    · refine .inr ⟨next, hlt, ?_, hused, hcover⟩
      rw [hinv.current]
      exact fun h => hne (Option.some.inj h).symm
    · exact fun h => hparked.outside a hcover (espField_covers hinv.cur_lt h)
  rw [SwitchState.switch, Cpu.callContextSwitch_eq _ _ _ _ hkept]
  dsimp only
  rw [switchMemory, Memory.loadWord_storeWord]

theorem switch (hinv : SwitchInv base cur events s) {old next : Nat} {out into : Context}
    (hstep : switchStep src base s (.switch old out next into) s') :
    SwitchInv base next (events ++ [.switch old out next into]) s' ∧
      lastContext next events = some into := by
  obtain ⟨ret, hselect, hroom, rfl, rfl, rfl⟩ := hstep
  obtain ⟨x, hx, hswitch⟩ := hinv.switch_eq ret hselect hroom
  obtain ⟨hcur, hnext, hne, hschedule⟩ := scheduleSelect_some hselect
  obtain rfl : cur = old := Option.some.inj (hinv.current.symm.trans hcur)
  obtain ⟨hready, hlt⟩ := ProcTable.nextReady_some hnext
  have hproc : ∀ i, (schedule s.table (s.cpu.esp - 44).toNat).proc i =
      if i = next then { s.table.proc next with state := .running }
      else if i = cur then { s.table.proc cur with state := .ready, esp := (s.cpu.esp - 44).toNat }
      else s.table.proc i := by
    intro i
    rw [hschedule]
    exact s.table.switched_proc hne hinv.running _ i
  rw [hswitch]
  refine ⟨⟨?_, hlt, ?_, ?_⟩, hx⟩
  · show (schedule s.table (s.cpu.esp - 44).toNat).current = some next
    rw [hschedule]
    exact (s.table.switched_rest cur next _).1
  · show ((schedule s.table (s.cpu.esp - 44).toNat).proc next).state = .running
    rw [hproc, if_pos rfl]
  · intro i hi hinext hused
    by_cases hicur : i = cur
    · subst hicur
      have hsaved : SwitchState.savedEsp base
          ⟨{ toContext := x
             mem := switchMemory s.cpu (espField base i) (s.savedEsp base next) ret },
            schedule s.table (s.cpu.esp - 44).toNat, s.pages⟩ i = s.cpu.esp - 44 :=
        Memory.loadWord_storeWord ..
      refine ⟨⟨⟨s.cpu.regs, s.cpu.esp - 8, ret⟩, ?_, ?_⟩, ?_⟩
      · rw [lastContext_snoc, SwitchEvent.leaves, if_pos rfl]
        rfl
      · rw [hsaved]
        apply frameAt_switchMemory
        intro a hcover hfield
        exact hroom a hcover (.inl (espField_covers hi hfield))
      · intro a hcover htable
        rw [hsaved] at hcover
        exact hroom a (hcover.mono (by decide)) (.inl htable)
    · have hused' : (s.table.proc i).state ≠ .unused := by
        have hsame := hproc i
        rw [if_neg hinext, if_neg hicur] at hsame
        rw [← hsame]
        exact hused
      apply hinv.parked_keep hi hicur hused' hinv.cur_lt hicur
      · rw [lastContext_snoc, SwitchEvent.leaves, if_neg (Ne.symm hicur)]
        rfl
      · intro a ha hout
        exact pushed_of_protected s.cpu.esp (s.cpu.esp - 44) (switchWords s.cpu _ _ ret)
          (show 4 * 11 ≤ 2 ^ 32 by decide) hroom ha hout

theorem skip (hinv : SwitchInv base cur events s) (event : SwitchEvent)
    (hleaves : ∀ i, event.leaves i = none) (pages : Pages) :
    SwitchInv base cur (events ++ [event]) { s with pages := pages } := by
  refine ⟨hinv.current, hinv.cur_lt, hinv.running, ?_⟩
  intro i hi hne hused
  apply (hinv.parked i hi hne hused).keep
  · rw [lastContext_snoc, hleaves]
    rfl
  · exact fun _ _ => rfl
  · exact fun _ _ => rfl

theorem step (hinv : SwitchInv base cur events s) {event : SwitchEvent}
    (hstep : switchStep src base s event s') : ∃ cur', SwitchInv base cur' (events ++ [event]) s' := by
  cases event with
  | run => exact ⟨cur, hinv.run hstep⟩
  | create slot page entry => exact ⟨cur, hinv.create hstep⟩
  | refuse =>
      obtain ⟨name, entry, pages, -, rfl⟩ := hstep
      exact ⟨cur, hinv.skip .refuse (fun _ => rfl) pages⟩
  | switch old out next into => exact ⟨next, (hinv.switch hstep).1⟩
  | stay =>
      obtain ⟨-, rfl⟩ := hstep
      exact ⟨cur, hinv.skip .stay (fun _ => rfl) s'.pages⟩

theorem of_run {cpu : Cpu} {start : ProcTable} {pages : Pages}
    (hrun : Run (switchStep src base) ⟨cpu, processInit start, pages⟩ events s) :
    ∃ cur, SwitchInv base cur events s := by
  induction hrun with
  | nil => exact ⟨0, boot cpu start pages⟩
  | snoc _ hlast ih =>
      obtain ⟨cur, hinv⟩ := ih
      exact hinv.step hlast

end SwitchInv

/-- In every run, a process that `schedule` switches to goes on in the context in which it was
switched out last, or in its initial context if it has not run yet. -/
theorem switchRun_resumes (src : PageSource Pages) (base : UInt32) (cpu : Cpu) (start : ProcTable)
    (pages : Pages) (events : List SwitchEvent) (s s' : SwitchState Pages) (old next : Nat)
    (out into : Context)
    (hrun : Run (switchStep src base) ⟨cpu, processInit start, pages⟩ events s)
    (hstep : switchStep src base s (.switch old out next into) s') :
    lastContext next events = some into ∧ s'.cpu.toContext = into := by
  obtain ⟨cur, hinv⟩ := SwitchInv.of_run hrun
  refine ⟨(hinv.switch hstep).2, ?_⟩
  obtain ⟨ret, -, -, -, -, rfl⟩ := hstep
  rfl

/-- A processor in the kernel, with its stack in the middle of a page. -/
def bootCpu : Cpu := ⟨⟨⟨0, 0, 0, 0, 0, 0, 0⟩, 0x1E0800, 0x10000⟩, fun _ => 0⟩

theorem not_covers_of_pageTop {page a lo : UInt32} {n : Nat} (hpage : page.toNat % 4096 = 0)
    (htop : Covers (page + .ofNat 4060) 36 a) (hlo : lo.toNat % 4096 + n ≤ 4060) :
    ¬ Covers lo n a := by
  have hdist := htop.distance (by decide)
  unfold Covers
  rw [UInt32.toNat_sub] at *
  have ha := a.toNat_lt
  have hp := page.toNat_lt
  have hl := lo.toNat_lt
  omega

theorem switchStep_switch (src : PageSource Pages) {base : UInt32} {s : SwitchState Pages}
    {old next : Nat} (hselect : (scheduleSelect s.table).1 = some (old, next))
    (hroom : ∀ a, Covers (s.cpu.esp - 44) 44 a → ¬ Protected base s a) (ret : UInt32) :
    switchStep src base s
      (.switch old ⟨s.cpu.regs, s.cpu.esp - 8, ret⟩ next (s.switch base old next ret).cpu.toContext)
      (s.switch base old next ret) :=
  ⟨ret, hselect, hroom, rfl, rfl, rfl⟩

theorem run_createFirst (src : PageSource Pages) (pages : Pages) (hne : (src.alloc pages).1 ≠ 0) :
    ∃ page s, Run (switchStep src 0x20000) ⟨bootCpu, processInit zeroTable, pages⟩
        [.create 1 page 0x8000] s ∧
      (scheduleSelect s.table).1 = some (0, 1) ∧
      ∀ a, Covers (s.cpu.esp - 44) 44 a → ¬ Protected 0x20000 s a := by
  have havail := src.alloc_available pages hne
  obtain ⟨page, hpage⟩ : ∃ page : UInt32, (src.alloc pages).1 = page.toNat :=
    ⟨.ofNat _, (UInt32.toNat_ofNat_of_lt' (src.bounded _ _ havail)).symm⟩
  have haligned : page.toNat % 4096 = 0 := hpage ▸ src.aligned _ _ havail
  have hnonzero : page ≠ 0 := by
    rintro rfl
    exact hne hpage
  have hfind : (List.range maxProcesses).find?
      (fun i => ((processInit zeroTable).proc i).state = .unused) = some 1 := by decide
  have hunused := (processInit_spec zeroTable).2.2.2.2
  have hcreate : switchStep src 0x20000 ⟨bootCpu, processInit zeroTable, pages⟩
      (.create 1 page 0x8000)
      (SwitchState.create src 0x20000 ⟨bootCpu, processInit zeroTable, pages⟩ 1 page [] 0x8000) := by
    refine ⟨[], hfind, hpage, hnonzero, ?_, rfl⟩
    rintro a htop (htable | ⟨i, hi, hcur, hused, -⟩)
    · exact not_covers_of_pageTop haligned htop (by decide) htable
    · have hzero : i ≠ 0 := by
        rintro rfl
        exact hcur rfl
      exact hused (hunused i (by omega) hi)
  rw [SwitchState.create_eq hfind hpage hnonzero] at hcreate
  refine ⟨page, _, Run.snoc (Run.nil _) hcreate, rfl, ?_⟩
  intro a hcover hprotected
  have hpushed : Covers (0x1E0800 - 44) 44 a := hcover
  rcases hprotected with htable | ⟨i, hi, hcur, hused, hframe⟩
  · have hfirst : (0x1E0800 - 44 : UInt32).toNat = 0x1E07D4 := rfl
    have hbase : (0x20000 : UInt32).toNat = 0x20000 := rfl
    unfold Covers at hpushed htable
    rw [UInt32.toNat_sub, hfirst] at hpushed
    rw [UInt32.toNat_sub, hbase, maxProcesses] at htable
    have ha := a.toNat_lt
    omega
  · have hone : i = 1 := by
      by_contra hother
      have hzero : i ≠ 0 := by
        rintro rfl
        exact hcur rfl
      apply hused
      rw [← hunused i (by omega) hi]
      exact congrArg Process.state (Function.update_of_ne hother ..)
    subst hone
    have hsaved : SwitchState.savedEsp 0x20000
        ⟨{ bootCpu with mem := createMemory bootCpu.mem 0x20000 1 page 0x8000 },
          (processInit zeroTable).created 1 page.toNat [] (0x8000 : UInt32).toNat,
          (src.alloc pages).2⟩ 1 = page + 4060 := Memory.loadWord_storeWord ..
    rw [hsaved] at hframe
    exact not_covers_of_pageTop haligned hframe (by decide) hpushed

/-- The first switch to a new process. -/
theorem switchRun_resumes_first : ∃ page out s s',
    Run (switchStep pmmPool 0x20000) ⟨bootCpu, processInit zeroTable, bootPool⟩
        [.create 1 page 0x8000] s ∧
      switchStep pmmPool 0x20000 s (.switch 0 out 1 (initialContext page 0x8000)) s' := by
  obtain ⟨page, s, hrun, hselect, hroom⟩ := run_createFirst pmmPool bootPool bootPool_alloc_ne_zero
  have hstep := switchStep_switch pmmPool hselect hroom 0x10100
  obtain ⟨hlast, -⟩ := switchRun_resumes _ _ _ _ _ _ _ _ _ _ _ _ hrun hstep
  rw [← Option.some.inj hlast] at hstep
  exact ⟨page, _, s, _, hrun, hstep⟩

end Magnos
