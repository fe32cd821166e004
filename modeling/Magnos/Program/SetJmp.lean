import Magnos.Process.Switch

/-!
# Leaving a program

`exec_setjmp` and `exec_longjmp` instruction by instruction.  What runs between the two may change
every register and all memory but the 24 bytes of the buffer.
-/

namespace Magnos

open Framework

/-- The instructions of `setjmp.asm`; `save` and `restore` name the register they move, and
`nonzero` is the test of `eax` with the jump over its increment. -/
inductive JmpInstr where
  | movEax (off : UInt32)
  | movEdx (off : UInt32)
  | movEcx
  | leaEcx (off : UInt32)
  | save (off : UInt32) (reg : Regs → UInt32)
  | restore (off : UInt32) (set : UInt32 → Regs → Regs)
  | restoreEsp (off : UInt32)
  | clearEax
  | nonzero
  | ret
  | jmp (off : UInt32)

def Cpu.jmpExec (c : Cpu) : JmpInstr → Cpu
  | .movEax off => { c with regs := { c.regs with eax := c.mem.loadWord (c.esp + off) } }
  | .movEdx off => { c with regs := { c.regs with edx := c.mem.loadWord (c.esp + off) } }
  | .movEcx => { c with regs := { c.regs with ecx := c.mem.loadWord c.esp } }
  | .leaEcx off => { c with regs := { c.regs with ecx := c.esp + off } }
  | .save off reg => { c with mem := c.mem.storeWord (c.regs.eax + off) (reg c.regs) }
  | .restore off set => { c with regs := set (c.mem.loadWord (c.regs.edx + off)) c.regs }
  | .restoreEsp off => { c with esp := c.mem.loadWord (c.regs.edx + off) }
  | .clearEax => { c with regs := { c.regs with eax := 0 } }
  | .nonzero => if c.regs.eax = 0 then { c with regs := { c.regs with eax := c.regs.eax + 1 } } else c
  | .ret => { c with eip := c.mem.loadWord c.esp, esp := c.esp + 4 }
  | .jmp off => { c with eip := c.mem.loadWord (c.regs.edx + off) }

def execSetjmp : List JmpInstr :=
  [.movEax 4, .save 0 Regs.ebx, .save 4 Regs.esi, .save 8 Regs.edi, .save 12 Regs.ebp, .leaEcx 4,
    .save 16 Regs.ecx, .movEcx, .save 20 Regs.ecx, .clearEax, .ret]

def execLongjmp : List JmpInstr :=
  [.movEdx 4, .movEax 8, .nonzero, .restore 0 fun w r => { r with ebx := w },
    .restore 4 fun w r => { r with esi := w }, .restore 8 fun w r => { r with edi := w },
    .restore 12 fun w r => { r with ebp := w }, .restoreEsp 16, .jmp 20]

/-- `exec_setjmp(buf)`, called from before `ret`. -/
def Cpu.callExecSetjmp (c : Cpu) (buf ret : UInt32) : Cpu :=
  execSetjmp.foldl Cpu.jmpExec (c.push [buf, ret])

/-- `exec_longjmp(buf, val)`, called from before `ret`. -/
def Cpu.callExecLongjmp (c : Cpu) (buf val ret : UInt32) : Cpu :=
  execLongjmp.foldl Cpu.jmpExec (c.push [val, buf, ret])

/-- The words from an address on. -/
def WordsAt (mem : Memory) (base : UInt32) (ws : List UInt32) : Prop :=
  ∀ i w, ws[i]? = some w → mem.loadWord (base + .ofNat (4 * i)) = w

theorem WordsAt.congr {mem mem' : Memory} {base : UInt32} {ws : List UInt32}
    (hwords : WordsAt mem base ws) (hfits : 4 * ws.length ≤ 2 ^ 32)
    (hsame : ∀ a, Covers base (4 * ws.length) a → mem' a = mem a) :
    WordsAt mem' base ws := by
  intro i w hi
  have hlt : i < ws.length := (List.getElem?_eq_some_iff.mp hi).1
  rw [← hwords i w hi]
  apply Memory.loadWord_congr
  intro a hcover
  exact hsame a (hcover.within (by omega) hfits)

theorem WordsAt.snoc {mem : Memory} {base : UInt32} {ws : List UInt32} (hwords : WordsAt mem base ws)
    (hfits : 4 * (ws.length + 1) ≤ 2 ^ 32) (w : UInt32) :
    WordsAt (mem.storeWord (base + .ofNat (4 * ws.length)) w) base (ws ++ [w]) := by
  have hkept : WordsAt (mem.storeWord (base + .ofNat (4 * ws.length)) w) base ws := by
    apply hwords.congr (by omega)
    intro a hcover
    apply Memory.storeWord_of_outside
    exact fun hbehind => hbehind.not_behind (by omega) hcover
  intro i v hi
  rw [List.getElem?_append] at hi
  split at hi
  · exact hkept i v hi
  · next hlast =>
      obtain ⟨hzero, rfl⟩ : i - ws.length = 0 ∧ w = v := by
        simpa [List.getElem?_singleton] using hi
      obtain rfl : i = ws.length := by omega
      exact Memory.loadWord_storeWord ..

theorem WordsAt.nil (mem : Memory) (base : UInt32) : WordsAt mem base [] := by
  intro i w hi
  cases hi

theorem execSetjmp_run (d : Cpu) {buf ret : UInt32} (hbuf : d.mem.loadWord (d.esp + 4) = buf)
    (hret : d.mem.loadWord d.esp = ret) (hapart : ∀ a, Covers d.esp 4 a → ¬ Covers buf 24 a) :
    WordsAt (execSetjmp.foldl Cpu.jmpExec d).mem buf
        [d.regs.ebx, d.regs.esi, d.regs.edi, d.regs.ebp, d.esp + 4, ret] ∧
      (execSetjmp.foldl Cpu.jmpExec d).toContext =
        ⟨{ d.regs with eax := 0, ecx := ret }, d.esp + 4, ret⟩ := by
  have hstore : ∀ (mem : Memory) (i : Nat) (w : UInt32), i < 6 →
      (mem.storeWord (buf + .ofNat (4 * i)) w).loadWord d.esp = mem.loadWord d.esp := by
    intro mem i w hi
    apply Memory.loadWord_congr
    intro a hcover
    apply Memory.storeWord_of_outside
    exact fun hword => hapart a hcover (hword.within (by omega) (by decide))
  have hwords := (((((WordsAt.nil d.mem buf).snoc (by simp) d.regs.ebx).snoc (by simp)
    d.regs.esi).snoc (by simp) d.regs.edi).snoc (by simp) d.regs.ebp).snoc (by simp) (d.esp + 4)
  generalize hmem : ((((d.mem.storeWord (buf + 0) d.regs.ebx).storeWord (buf + 4) d.regs.esi).storeWord
    (buf + 8) d.regs.edi).storeWord (buf + 12) d.regs.ebp).storeWord (buf + 16) (d.esp + 4) = mem
  have hkept : mem.loadWord d.esp = ret := by
    rw [← hmem, ← hret]
    exact (hstore _ 4 _ (by decide)).trans <| (hstore _ 3 _ (by decide)).trans <|
      (hstore _ 2 _ (by decide)).trans <| (hstore _ 1 _ (by decide)).trans (hstore _ 0 _ (by decide))
  have hlast : (mem.storeWord (buf + 20) ret).loadWord d.esp = ret :=
    (hstore mem 5 ret (by decide)).trans hkept
  have hrun : execSetjmp.foldl Cpu.jmpExec d =
      { regs := { d.regs with eax := 0, ecx := ret }, esp := d.esp + 4, eip := ret,
        mem := mem.storeWord (buf + 20) ret } := by
    simp only [execSetjmp, List.foldl_cons, List.foldl_nil, Cpu.jmpExec, hbuf, hmem, hkept, hlast]
  rw [hrun]
  refine ⟨?_, rfl⟩
  rw [← hmem]
  exact hwords.snoc (by simp) ret

/-- What `exec_longjmp` does with a buffer that `exec_setjmp` has filled. -/
theorem execLongjmp_run (d : Cpu) {buf val sp ret : UInt32} {r : Regs}
    (hbuf : d.mem.loadWord (d.esp + 4) = buf) (hval : d.mem.loadWord (d.esp + 8) = val)
    (hwords : WordsAt d.mem buf [r.ebx, r.esi, r.edi, r.ebp, sp, ret]) :
    (execLongjmp.foldl Cpu.jmpExec d).toContext =
      ⟨{ d.regs with
          eax := if val = 0 then 1 else val, edx := buf, ebx := r.ebx, esi := r.esi, edi := r.edi
          ebp := r.ebp }, sp, ret⟩ := by
  have hebx : d.mem.loadWord (buf + 0) = _ := hwords 0 _ rfl
  have hesi : d.mem.loadWord (buf + 4) = _ := hwords 1 _ rfl
  have hedi : d.mem.loadWord (buf + 8) = _ := hwords 2 _ rfl
  have hebp : d.mem.loadWord (buf + 12) = _ := hwords 3 _ rfl
  have hesp : d.mem.loadWord (buf + 16) = _ := hwords 4 _ rfl
  have heip : d.mem.loadWord (buf + 20) = _ := hwords 5 _ rfl
  by_cases hzero : val = 0
  · simp only [execLongjmp, List.foldl_cons, List.foldl_nil, Cpu.jmpExec, hbuf, hval, hzero, if_true,
      hebx, hesi, hedi, hebp, hesp, heip, UInt32.zero_add]
  · simp only [execLongjmp, List.foldl_cons, List.foldl_nil, Cpu.jmpExec, hbuf, hval, hzero, if_false,
      hebx, hesi, hedi, hebp, hesp, heip]

theorem esp_after_return (sp : UInt32) : sp - 8 + 4 = sp - 4 := by grind

/-- The buffer and the stack of a call are apart. -/
def BufferApart (buf sp : UInt32) (n : Nat) : Prop := ∀ a, Covers (sp - .ofNat n) n a → ¬ Covers buf 24 a

/-- `exec_longjmp` goes on where `exec_setjmp` returned, with the registers that a call preserves
and the stack pointer of that moment, and a result that is not zero.  In between anything may run
that leaves the buffer alone. -/
theorem execLongjmp_resumes (c : Cpu) (buf ret : UInt32) (hset : BufferApart buf c.esp 8)
    (c' : Cpu) (val ret' : UInt32) (hjmp : BufferApart buf c'.esp 12)
    (hkept : ∀ a, Covers buf 24 a → c'.mem a = (c.callExecSetjmp buf ret).mem a) :
    (c.callExecSetjmp buf ret).toContext =
        ⟨{ c.regs with eax := 0, ecx := ret }, c.esp - 4, ret⟩ ∧
      (c'.callExecLongjmp buf val ret').toContext =
        ⟨{ c'.regs with
            eax := if val = 0 then 1 else val, edx := buf, ebx := c.regs.ebx, esi := c.regs.esi
            edi := c.regs.edi, ebp := c.regs.ebp }, c.esp - 4, ret⟩ ∧
      (c'.callExecLongjmp buf val ret').regs.eax ≠ 0 := by
  have hsp : (c.push [buf, ret]).esp = c.esp - 8 := c.push_esp _
  have hsp' : (c'.push [val, buf, ret']).esp = c'.esp - 12 := c'.push_esp _
  have hfits : 4 * [val, buf, ret'].length ≤ 2 ^ 32 := by simp
  have hload : (c.push [buf, ret]).mem.loadWord ((c.push [buf, ret]).esp + .ofNat (4 * 1)) = buf :=
    Memory.pushAll_load c.mem c.esp [buf, ret] (i := 1) (by simp) rfl
  have hret : (c.push [buf, ret]).mem.loadWord ((c.push [buf, ret]).esp + .ofNat (4 * 0)) = ret :=
    Memory.pushAll_load c.mem c.esp [buf, ret] (i := 0) (by simp) rfl
  rw [show UInt32.ofNat (4 * 0) = 0 from rfl, UInt32.add_zero] at hret
  have hapart : ∀ a, Covers (c.push [buf, ret]).esp 4 a → ¬ Covers buf 24 a := by
    intro a hcover
    rw [hsp] at hcover
    exact hset a (hcover.mono (by decide))
  obtain ⟨hwords, hcontext⟩ := execSetjmp_run (c.push [buf, ret]) hload hret hapart
  rw [hsp, esp_after_return] at hwords hcontext
  refine ⟨hcontext, ?_⟩
  have hbuffer : WordsAt (c'.push [val, buf, ret']).mem buf
      [c.regs.ebx, c.regs.esi, c.regs.edi, c.regs.ebp, c.esp - 4, ret] := by
    apply WordsAt.congr hwords (by simp)
    intro a hcover
    rw [← Cpu.callExecSetjmp, ← hkept a hcover]
    exact Memory.pushAll_of_outside _ _ _ hfits fun hstack => hjmp a hstack hcover
  have hbuf' : (c'.push [val, buf, ret']).mem.loadWord ((c'.push [val, buf, ret']).esp + 4) = buf :=
    Memory.pushAll_load c'.mem c'.esp [val, buf, ret'] (i := 1) hfits rfl
  have hval : (c'.push [val, buf, ret']).mem.loadWord ((c'.push [val, buf, ret']).esp + 8) = val :=
    Memory.pushAll_load c'.mem c'.esp [val, buf, ret'] (i := 2) hfits rfl
  have hjump := execLongjmp_run (r := c.regs) (c'.push [val, buf, ret']) hbuf' hval hbuffer
  refine ⟨hjump, ?_⟩
  rw [Cpu.callExecLongjmp, hjump]
  show (if val = 0 then (1 : UInt32) else val) ≠ 0
  by_cases hzero : val = 0
  · rw [if_pos hzero]
    decide
  · rw [if_neg hzero]
    exact hzero

/-- A processor with its stack at 0x1F0000. -/
def jmpCpu (mem : Memory) : Cpu := ⟨⟨⟨1, 2, 3, 4, 5, 6, 7⟩, 0x1F0000, 0⟩, mem⟩

theorem bufferApart_stack (n : Nat) (hn : n ≤ 12) : BufferApart 0x1000 0x1F0000 n := by
  intro a hstack hbuf
  unfold Covers at hstack hbuf
  rw [UInt32.toNat_sub] at hstack hbuf
  rw [UInt32.toNat_sub] at hstack
  simp only [UInt32.reduceToNat, UInt32.toNat_ofNat'] at hstack hbuf
  have ha := a.toNat_lt
  omega

/-- A buffer at 0x1000, and a jump with the value 0 from the same stack. -/
theorem execLongjmp_resumes_stack :
    ((jmpCpu ((jmpCpu fun _ => 0).callExecSetjmp 0x1000 0x5000).mem).callExecLongjmp
      0x1000 0 0x6000).toContext = ⟨⟨1, 2, 0x1000, 4, 5, 6, 7⟩, 0x1EFFFC, 0x5000⟩ :=
  (execLongjmp_resumes (jmpCpu fun _ => 0) 0x1000 0x5000 (bufferApart_stack 8 (by decide))
    (jmpCpu ((jmpCpu fun _ => 0).callExecSetjmp 0x1000 0x5000).mem) 0 0x6000
    (bufferApart_stack 12 (by decide)) fun _ _ => rfl).2.1

end Magnos
