import Mathlib.Data.Nat.Bitwise

/-!
# The signal frame on the user stack

The two layouts in which `build_handler_frame` and `build_handler_frame_lx` save the
interrupted registers and the signal mask, word by word, and what `do_sigreturn` and
`lx_do_sigreturn` read back.  User memory is a function from the address of an aligned
eight-byte word to its value.
-/

namespace AuraLite.SignalFrame

/-! ## Words in memory -/

/-- The `count` words `word` stored from `base` on. -/
def writeWords (mem : ℕ → ℕ) (base count : ℕ) (word : ℕ → ℕ) (addr : ℕ) : ℕ :=
  if base ≤ addr ∧ addr < base + 8 * count ∧ (addr - base) % 8 = 0 then
    word ((addr - base) / 8)
  else mem addr

theorem writeWords_inside (mem : ℕ → ℕ) (base : ℕ) {count i : ℕ} (word : ℕ → ℕ)
    (hi : i < count) : writeWords mem base count word (base + 8 * i) = word i := by
  have hinside : base ≤ base + 8 * i ∧ base + 8 * i < base + 8 * count ∧
      (base + 8 * i - base) % 8 = 0 := by omega
  have hindex : (base + 8 * i - base) / 8 = i := by omega
  rw [writeWords, if_pos hinside, hindex]

variable {word : ℕ → ℕ}

theorem writeWords_above {mem : ℕ → ℕ} {base count addr : ℕ}
    (habove : base + 8 * count ≤ addr) : writeWords mem base count word addr = mem addr := by
  rw [writeWords, if_neg]
  omega

/-! ## Registers, masks and flags -/

inductive Persona
  | native
  | lx
deriving DecidableEq

/-- The user registers; `fx` are the 64 words of the FPU state. -/
structure Regs where
  r15 : ℕ
  r14 : ℕ
  r13 : ℕ
  r12 : ℕ
  r11 : ℕ
  r10 : ℕ
  r9 : ℕ
  r8 : ℕ
  rdi : ℕ
  rsi : ℕ
  rbp : ℕ
  rdx : ℕ
  rcx : ℕ
  rbx : ℕ
  rax : ℕ
  rip : ℕ
  rflags : ℕ
  rsp : ℕ
  fx : ℕ → ℕ

/-- The general registers, RIP and RSP. -/
def Regs.general (r : Regs) : List ℕ :=
  [r.r15, r.r14, r.r13, r.r12, r.r11, r.r10, r.r9, r.r8, r.rdi, r.rsi, r.rbp, r.rdx,
    r.rcx, r.rbx, r.rax, r.rip, r.rsp]

def userVaddrTop : ℕ := 0x800000000000

def userCs : ℕ := 0x23
def userSs : ℕ := 0x1B

/-- A mask without SIGKILL and SIGSTOP. -/
def maskClean (mask : ℕ) : ℕ := mask &&& 0xFFFBFEFF

def sigBit (signo : ℕ) : ℕ := if 1 ≤ signo ∧ signo < 32 then 2 ^ (signo - 1) else 0

/-- `FIX_EFLAGS`: the flags a user may set. -/
def fixEflags : ℕ := 0x50DD5

/-- The flags `do_sigreturn` takes from a frame, with IF and the reserved bit. -/
def restoreFlags (rflags : ℕ) : ℕ := rflags &&& fixEflags ||| 0x200 ||| 2

/-- The flags at handler entry: DF, RF and TF clear, IF set. -/
def handlerFlags (rflags : ℕ) : ℕ := rflags &&& (2 ^ 64 - 1 - 0x10500) ||| 0x200

theorem maskClean_idem (mask : ℕ) : maskClean (maskClean mask) = maskClean mask := by
  rw [maskClean, maskClean, Nat.and_assoc, Nat.and_self]

theorem maskClean_lt (mask : ℕ) : maskClean mask < 2 ^ 32 :=
  Nat.lt_of_le_of_lt Nat.and_le_right (by decide)

theorem restoreFlags_fix (rflags : ℕ) :
    restoreFlags rflags &&& fixEflags = rflags &&& fixEflags := by
  have hif : 0x200 &&& fixEflags = 0 := by decide
  have hreserved : 2 &&& fixEflags = 0 := by decide
  rw [restoreFlags, Nat.and_or_distrib_right, Nat.and_or_distrib_right, hif, hreserved,
    Nat.or_zero, Nat.or_zero, Nat.and_assoc, Nat.and_self]

/-! ## Layout -/

/-- RSP at handler entry, where the return address of the handler is.  A native frame
lies above it; the `rt_sigframe` of an lx process begins there. -/
def handlerRsp : Persona → ℕ → ℕ
  | .native, rsp => (rsp - 128 - 688) / 16 * 16 - 8
  | .lx, rsp => (rsp - 128 - 1072) / 16 * 16 + 8

/-- The words from there to the end of the frame. -/
def frameWords : Persona → ℕ
  | .native => 87
  | .lx => 134

/-- The subtractions from RSP do not wrap. -/
def hasRoom : Persona → ℕ → Bool
  | .native, rsp => decide (128 + 688 + 16 ≤ rsp)
  | .lx, rsp => decide (128 + 1072 ≤ rsp)

theorem handlerRsp_below {p : Persona} {rsp : ℕ} (hroom : hasRoom p rsp = true) :
    handlerRsp p rsp + 8 * frameWords p + 112 ≤ rsp := by
  cases p with
  | native =>
    have hle : 128 + 688 + 16 ≤ rsp := of_decide_eq_true hroom
    change (rsp - 128 - 688) / 16 * 16 - 8 + 8 * 87 + 112 ≤ rsp
    omega
  | lx =>
    have hle : 128 + 1072 ≤ rsp := of_decide_eq_true hroom
    change (rsp - 128 - 1072) / 16 * 16 + 8 + 8 * 134 + 112 ≤ rsp
    omega

/-- The words of a frame: the return address, then `struct signal_frame`, or
`struct lx_ucontext` and `struct lx_siginfo`. -/
def frameWord (p : Persona) (r : Regs) (mask signo restorer : ℕ) (info : ℕ → ℕ) (n : ℕ) :
    ℕ :=
  if n = 0 then restorer
  else match p with
    | .native =>
      if n ≤ 64 then r.fx (n - 1)
      else [r.r15, r.r14, r.r13, r.r12, r.r11, r.r10, r.r9, r.r8, r.rdi, r.rsi, r.rbp,
        r.rdx, r.rcx, r.rbx, r.rax, r.rip, r.rflags, r.rsp, userCs, userSs,
        mask + signo * 2 ^ 32].getD (n - 65) 0
    | .lx =>
      if 118 ≤ n then info (n - 118)
      else if n = 38 then mask
      else [r.r8, r.r9, r.r10, r.r11, r.r12, r.r13, r.r14, r.r15, r.rdi, r.rsi, r.rbp,
        r.rbx, r.rdx, r.rax, r.rcx, r.rsp, r.rip, r.rflags, userCs].getD (n - 6)
        0

/-- The FPU state with the reserved bits of MXCSR cleared. -/
def restoreFx (word : ℕ → ℕ) (i : ℕ) : ℕ :=
  if i = 3 then word 3 / 2 ^ 32 * 2 ^ 32 + word 3 % 2 ^ 16 else word i

/-- The registers and the mask `do_sigreturn` and `lx_do_sigreturn` take from the words
above the return address.  The lx frame does not hold the FPU state. -/
def readFrame (p : Persona) (fx : ℕ → ℕ) (word : ℕ → ℕ) : Regs × ℕ :=
  match p with
  | .native =>
    ({ r15 := word 64, r14 := word 65, r13 := word 66, r12 := word 67, r11 := word 68
       r10 := word 69, r9 := word 70, r8 := word 71, rdi := word 72, rsi := word 73
       rbp := word 74, rdx := word 75, rcx := word 76, rbx := word 77, rax := word 78
       rip := word 79, rflags := restoreFlags (word 80), rsp := word 81
       fx := restoreFx word },
     maskClean (word 84 % 2 ^ 32))
  | .lx =>
    ({ r8 := word 5, r9 := word 6, r10 := word 7, r11 := word 8, r12 := word 9
       r13 := word 10, r14 := word 11, r15 := word 12, rdi := word 13, rsi := word 14
       rbp := word 15, rbx := word 16, rdx := word 17, rax := word 18, rcx := word 19
       rsp := word 20, rip := word 21, rflags := restoreFlags (word 22), fx := fx },
     maskClean (word 37 % 2 ^ 32))

/-- The words of `struct signal_frame` above the FPU state. -/
theorem frameWord_native (r : Regs) (mask signo restorer : ℕ) (info : ℕ → ℕ) (k : ℕ) :
    frameWord .native r mask signo restorer info (k + 65) =
      [r.r15, r.r14, r.r13, r.r12, r.r11, r.r10, r.r9, r.r8, r.rdi, r.rsi, r.rbp, r.rdx,
        r.rcx, r.rbx, r.rax, r.rip, r.rflags, r.rsp, userCs, userSs,
        mask + signo * 2 ^ 32].getD k 0 := by
  have hpos : ¬ k + 65 = 0 := by omega
  have hfx : ¬ k + 65 ≤ 64 := by omega
  rw [frameWord, if_neg hpos]
  simp only [if_neg hfx, Nat.add_sub_cancel]

theorem readFrame_frameWord (p : Persona) (r : Regs) {mask : ℕ} (signo restorer : ℕ)
    (info fx : ℕ → ℕ) (hmask : maskClean mask = mask)
    (hword : ∀ i, i + 1 < frameWords p → word i = frameWord p r mask signo restorer info (i + 1)) :
    (readFrame p fx word).1.general = r.general ∧
      (readFrame p fx word).1.rflags = restoreFlags r.rflags ∧
      (readFrame p fx word).2 = mask := by
  have hlt : mask < 2 ^ 32 := hmask ▸ maskClean_lt mask
  cases p with
  | native =>
    have hsaved : word 84 = mask + signo * 2 ^ 32 := by
      rw [hword 84 (by decide), frameWord_native (k := 20)]
      simp only [List.getD_cons_succ, List.getD_cons_zero]
    have hflags : word 80 = r.rflags := hword 80 (by decide)
    refine ⟨?_, congrArg restoreFlags hflags, ?_⟩
    · simp only [readFrame, Regs.general, List.cons.injEq, and_true]
      exact ⟨hword 64 (by decide), hword 65 (by decide), hword 66 (by decide), hword 67 (by decide),
        hword 68 (by decide), hword 69 (by decide), hword 70 (by decide), hword 71 (by decide),
        hword 72 (by decide), hword 73 (by decide), hword 74 (by decide), hword 75 (by decide),
        hword 76 (by decide), hword 77 (by decide), hword 78 (by decide), hword 79 (by decide),
        hword 81 (by decide)⟩
    · simp only [readFrame]
      rw [hsaved, Nat.add_mul_mod_self_right, Nat.mod_eq_of_lt hlt, hmask]
  | lx =>
    have hsaved : word 37 = mask := hword 37 (by decide)
    have hflags : word 22 = r.rflags := hword 22 (by decide)
    refine ⟨?_, congrArg restoreFlags hflags, ?_⟩
    · simp only [readFrame, Regs.general, List.cons.injEq, and_true]
      exact ⟨hword 12 (by decide), hword 11 (by decide), hword 10 (by decide), hword 9 (by decide),
        hword 8 (by decide), hword 7 (by decide), hword 6 (by decide), hword 5 (by decide),
        hword 13 (by decide), hword 14 (by decide), hword 15 (by decide), hword 17 (by decide),
        hword 19 (by decide), hword 16 (by decide), hword 18 (by decide), hword 21 (by decide),
        hword 20 (by decide)⟩
    · simp only [readFrame]
      rw [hsaved, Nat.mod_eq_of_lt hlt, hmask]

end AuraLite.SignalFrame
