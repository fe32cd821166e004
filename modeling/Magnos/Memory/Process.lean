import Magnos.Memory.Heap

/-!
# Process table

The table of `process.c` and the stack frames `process_create` builds in the page it takes
for a new process.
-/

namespace Magnos

open Framework

variable {Pages : Type}

def maxProcesses : Nat := 16

inductive ProcStatus where
  | unused
  | ready
  | running
  | blocked
  | terminated
deriving DecidableEq

/-- `process_t`; the name up to its terminator. -/
structure Process where
  pid : Nat
  name : List UInt8
  state : ProcStatus
  esp : Nat
  eip : Nat
  pageDirectory : Nat
  kernelStack : Nat

/-- The statics of `process.c`, `current_proc` as a slot number, and the words of the
process stacks by address. -/
structure ProcTable where
  proc : Nat → Process
  current : Option Nat
  nextPid : Nat
  word : Nat → Nat

def ProcTable.setProc (s : ProcTable) (slot : Nat) (p : Process) : ProcTable :=
  { s with proc := Function.update s.proc slot p }

/-- The name `process_init` gives to the kernel process. -/
def kernelName : List UInt8 := "kernel".toUTF8.toList

def processInit (s : ProcTable) : ProcTable :=
  let s := (List.range maxProcesses).foldl
    (fun s i => s.setProc i { s.proc i with state := .unused, pid := 0 }) s
  let s := s.setProc 0
    { s.proc 0 with
      pid := s.nextPid
      state := .running
      esp := 0x1F0000
      kernelStack := 0x1F0000
      pageDirectory := 0
      name := kernelName.take 15 }
  { s with nextPid := (s.nextPid + 1) % 2 ^ 32, current := some 0 }

/-- `*(--sp) = w` for each word in turn. -/
def pushWords (word : Nat → Nat) (sp : Nat) (ws : List Nat) : (Nat → Nat) × Nat :=
  ws.foldl (fun (word, sp) w => (Function.update word (sub32 sp 4) w, sub32 sp 4)) (word, sp)

def processCreate (src : PageSource Pages) (s : ProcTable) (pages : Pages) (name : List UInt8)
    (entry : Nat) : Int × ProcTable × Pages :=
  match (List.range maxProcesses).find? fun i => (s.proc i).state = .unused with
  | none => (-1, s, pages)
  | some slot =>
      let stackPage := (src.alloc pages).1
      let pages := (src.alloc pages).2
      if stackPage = 0 then (-1, s, pages)
      else
        let (word, sp) := pushWords s.word ((stackPage + pageSize) % 2 ^ 32)
          [entry, 0, 0, 0, 0, 0, 0, 0, 0]
        let p : Process :=
          { pid := s.nextPid
            name := name.take 15
            state := .ready
            esp := sp
            eip := entry
            pageDirectory := 0
            kernelStack := stackPage }
        (toInt32 s.nextPid,
          { s.setProc slot p with nextPid := (s.nextPid + 1) % 2 ^ 32, word := word }, pages)

/-- The round-robin search of `schedule`, from the slot after `cur`. -/
def ProcTable.nextReady (s : ProcTable) (cur : Nat) : Option Nat :=
  ((List.range' 1 maxProcesses).map fun i => (cur + i) % maxProcesses).find? fun idx =>
    (s.proc idx).state = .ready

/-- `schedule` makes the process of slot `next` the current one. -/
def ProcTable.switchTo (s : ProcTable) (cur next : Nat) : ProcTable :=
  let s :=
    if (s.proc cur).state = .running then s.setProc cur { s.proc cur with state := .ready } else s
  let s := s.setProc next { s.proc next with state := .running }
  { s with current := some next }

/-- `schedule` up to its call of `context_switch`, and the slots that it switches between. -/
def scheduleSelect (s : ProcTable) : Option (Nat × Nat) × ProcTable :=
  match s.current with
  | none => (none, s)
  | some cur =>
      match s.nextReady cur with
      | none => (none, s)
      | some next => if next = cur then (none, s) else (some (cur, next), s.switchTo cur next)

/-- `schedule`, with the stack pointer that `context_switch` saves for the old process. -/
def schedule (s : ProcTable) (esp : Nat) : ProcTable :=
  match scheduleSelect s with
  | (none, s) => s
  | (some (old, _), s) => s.setProc old { s.proc old with esp := esp }

/-- The slot of the process with the given pid. -/
def processGet (s : ProcTable) (pid : Nat) : Option Nat :=
  (List.range maxProcesses).find? fun i => (s.proc i).state ≠ .unused ∧ (s.proc i).pid = pid

theorem ProcTable.nextReady_some {s : ProcTable} {cur next : Nat}
    (hnext : s.nextReady cur = some next) :
    (s.proc next).state = .ready ∧ next < maxProcesses := by
  have hready := List.find?_some hnext
  obtain ⟨i, -, rfl⟩ := List.mem_map.mp (List.mem_of_find?_eq_some hnext)
  exact ⟨of_decide_eq_true hready, Nat.mod_lt _ (by decide)⟩

theorem ProcTable.nextReady_none {s : ProcTable} {cur : Nat} (hnone : s.nextReady cur = none)
    {i : Nat} (hi : i < maxProcesses) (hcur : cur < maxProcesses) : (s.proc i).state ≠ .ready := by
  have hall := List.find?_eq_none.mp hnone i
  intro hready
  apply hall _ (decide_eq_true hready)
  apply List.mem_map.mpr
  simp only [maxProcesses] at *
  refine ⟨(i + 16 - cur - 1) % 16 + 1, ?_, ?_⟩
  · rw [List.mem_range'_1]
    omega
  · omega

/-- What `schedule` can do before it calls `context_switch`. -/
theorem scheduleSelect_cases (s : ProcTable) :
    (scheduleSelect s = (none, s) ∧ ∀ cur, s.current = some cur → cur < maxProcesses →
        ∀ i, i < maxProcesses → i ≠ cur → (s.proc i).state = .ready →
          (s.proc cur).state = .ready) ∨
      ∃ cur next, s.current = some cur ∧ s.nextReady cur = some next ∧ next ≠ cur ∧
        scheduleSelect s = (some (cur, next), s.switchTo cur next) := by
  unfold scheduleSelect
  cases hcur : s.current with
  | none => exact .inl ⟨rfl, fun cur h => by cases h⟩
  | some cur =>
      cases hnext : s.nextReady cur with
      | none =>
          refine .inl ⟨by simp only [hnext], ?_⟩
          intro c hc hlt i hi _ hready
          obtain rfl := Option.some.inj hc
          exact (ProcTable.nextReady_none hnext hi hlt hready).elim
      | some next =>
          by_cases hsame : next = cur
          · refine .inl ⟨by simp only [hnext, if_pos hsame], ?_⟩
            intro c hc _ _ _ _ _
            obtain rfl := Option.some.inj hc
            rw [← hsame]
            exact (ProcTable.nextReady_some hnext).1
          · exact .inr ⟨cur, next, rfl, hnext, hsame, by simp only [hnext, if_neg hsame]⟩

theorem ProcTable.setProc_proc (s : ProcTable) (slot : Nat) (p : Process) (i : Nat) :
    (s.setProc slot p).proc i = if i = slot then p else s.proc i :=
  Function.update_apply s.proc slot p i

theorem ProcTable.switchTo_proc (s : ProcTable) {cur next : Nat} (hne : next ≠ cur) (i : Nat) :
    (s.switchTo cur next).proc i =
      if i = next then { s.proc next with state := .running }
      else if i = cur ∧ (s.proc cur).state = .running then { s.proc cur with state := .ready }
      else s.proc i := by
  by_cases hrunning : (s.proc cur).state = .running
  · rw [ProcTable.switchTo, if_pos hrunning]
    dsimp only
    rw [ProcTable.setProc_proc, ProcTable.setProc_proc, ProcTable.setProc_proc, if_neg hne]
    simp only [hrunning, and_true]
  · rw [ProcTable.switchTo, if_neg hrunning]
    dsimp only
    rw [ProcTable.setProc_proc]
    simp only [hrunning, and_false, if_false]

theorem ProcTable.switched_proc (s : ProcTable) {cur next : Nat} (hne : next ≠ cur)
    (hrunning : (s.proc cur).state = .running) (esp i : Nat) :
    ((s.switchTo cur next).setProc cur
        { (s.switchTo cur next).proc cur with esp := esp }).proc i =
      if i = next then { s.proc next with state := .running }
      else if i = cur then { s.proc cur with state := .ready, esp := esp }
      else s.proc i := by
  rw [ProcTable.setProc_proc, s.switchTo_proc hne, s.switchTo_proc hne]
  simp only [hrunning, and_true]
  by_cases hi : i = cur
  · simp only [hi, hne.symm, if_true, if_false]
  · simp only [hi, if_false]

theorem ProcTable.switched_rest (s : ProcTable) (cur next esp : Nat) :
    let t := (s.switchTo cur next).setProc cur { (s.switchTo cur next).proc cur with esp := esp }
    t.current = some next ∧ t.word = s.word ∧ t.nextPid = s.nextPid := by
  rw [ProcTable.switchTo]
  dsimp only
  split <;> exact ⟨rfl, rfl, rfl⟩

theorem processCreate_pages (src : PageSource Pages) (s : ProcTable) (pages : Pages)
    (name : List UInt8) (entry : Nat) :
    (processCreate src s pages name entry).2.2 = pages ∨
      (processCreate src s pages name entry).2.2 = (src.alloc pages).2 := by
  unfold processCreate
  split
  · exact .inl rfl
  · right
    dsimp only
    split <;> rfl

end Magnos
