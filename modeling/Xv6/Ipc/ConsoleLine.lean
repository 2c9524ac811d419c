import Xv6.Ipc.Console
import Xv6.Sched.Observe
import Xv6.Library.RingBuffer

/-! # The line discipline of the console

A record of what has been typed, committed and delivered goes along with the console.  It edits the
line on lists and does not look at the indices; the input buffer holds what it says.
-/
namespace Xv6.Ipc.Console
open Library Sched

/-- What has happened at the console. -/
structure Record where
  /-- The line that is being typed. -/
  line : List UInt8
  /-- The characters that can no longer be edited. -/
  committed : List UInt8
  /-- How many of them reads have taken. -/
  taken : ℕ
  /-- The characters that reads have stored into user memory. -/
  delivered : List UInt8
  /-- How many reads of positive size have returned 0. -/
  zeroReads : ℕ

def Record.empty : Record := ⟨[], [], 0, [], 0⟩

/-- The characters in the input buffer. -/
def Record.held (h : Record) : ℕ := h.committed.length - h.taken + h.line.length

/-- The line editor. -/
def Record.type (h : Record) (ch : UInt8) : Record :=
  if ch = control 'P' then h
  else if ch = control 'U' then { h with line := [] }
  else if ch = control 'H' ∨ ch = delete then { h with line := h.line.dropLast }
  else if ch ≠ 0 ∧ h.held < INPUT_BUF_SIZE then
    let ch := if ch = carriageReturn then newline else ch
    if ch = newline ∨ ch = control 'D' ∨ h.held + 1 = INPUT_BUF_SIZE then
      { h with line := [], committed := h.committed ++ (h.line ++ [ch]) }
    else { h with line := h.line ++ [ch] }
  else h

/-- The character that a turn of the loop of `consoleread` stores, if it stores one. -/
def storedBy (n : ℤ) (x : Input) (c : Cons) : Option UInt8 :=
  if 0 < n ∧ c.r ≠ c.w ∧ c.buf (Cons.slot c.r) ≠ control 'D' then
    match x with
    | .copyout true => some (c.buf (Cons.slot c.r))
    | _ => none
  else none

/-- What a turn of the loop of `consoleread` does. -/
def Record.read (target n : ℤ) (x : Input) (c c' : Cons) (k : Point) (h : Record) : Record :=
  { h with
    taken := if c'.r = c.r then h.taken else h.taken + 1
    delivered := h.delivered ++ (storedBy n x c).toList
    zeroReads := if 0 < target ∧ k = .unlock 0 then h.zeroReads + 1 else h.zeroReads }

def note : Point → Input → Cons → Cons → Point → Record → Record
  | .edit ch, _, _, _, _, h => h.type ch
  | .rLoop target n, x, c, c', k, h => h.read target n x c c' k
  | _, _, _, _, _, h => h

variable {p : ℕ}

/-- The console with its record. -/
def recorded (q : Fin p) (k : Point) : Act (Cons × Record) Unit Input Point :=
  (prog q k).observe (note k)

/-! ## The input buffer holds what the record says -/

structure Agree (c : Cons) (h : Record) : Prop where
  r : c.r = BitVec.ofNat 32 h.taken
  w : c.w = BitVec.ofNat 32 h.committed.length
  e : c.e = BitVec.ofNat 32 (h.committed.length + h.line.length)
  le : h.taken ≤ h.committed.length
  room : h.held ≤ INPUT_BUF_SIZE
  notFull : h.line ≠ [] → h.held < INPUT_BUF_SIZE
  ring : RingBuffer.Holds c.buf (h.committed ++ h.line) h.taken
  noNewline : newline ∉ h.line
  delivered : h.delivered = (h.committed.take h.taken).filter (· != control 'D')
  zeroReads : h.zeroReads = (h.committed.take h.taken).count (control 'D')

namespace Agree

variable {c c' : Cons} {h : Record} {ch : UInt8} {target n : ℤ} {x : Input} {k : Point}

theorem start : Agree ⟨fun _ => 0, 0, 0, 0⟩ .empty where
  r := rfl
  w := rfl
  e := rfl
  le := le_rfl
  room := Nat.zero_le _
  notFull hne := absurd rfl hne
  ring j _ hj := absurd hj (Nat.not_lt_zero j)
  noNewline := List.not_mem_nil
  delivered := rfl
  zeroReads := rfl

section
variable (hc : Agree c h)
include hc

theorem held_eq : h.taken + h.held = h.committed.length + h.line.length := by
  have := hc.le
  unfold Record.held
  omega

theorem slot_taken : Cons.slot c.r = Fin.ofNat INPUT_BUF_SIZE h.taken := by
  apply Fin.ext
  rw [hc.r]
  exact RingBuffer.toNat_mod (by decide) _

theorem sub_r : (c.e - c.r).toNat = h.held := by
  have hle := hc.le
  have hroom := hc.room
  have hsize : INPUT_BUF_SIZE < 2 ^ 32 := by decide
  have heq := hc.held_eq
  rw [hc.e, hc.r, RingBuffer.sub_toNat (by omega) (by omega)]
  omega

theorem w_sub_r : (c.w - c.r).toNat = h.committed.length - h.taken := by
  have hle := hc.le
  have hroom := hc.room
  have hsize : INPUT_BUF_SIZE < 2 ^ 32 := by decide
  have heq := hc.held_eq
  rw [hc.w, hc.r, RingBuffer.sub_toNat hle (by omega)]

theorem e_sub_w : (c.e - c.w).toNat = h.line.length := by
  have hroom := hc.room
  have hsize : INPUT_BUF_SIZE < 2 ^ 32 := by decide
  have heq := hc.held_eq
  have hle := hc.le
  rw [hc.e, hc.w, RingBuffer.sub_toNat (by omega) (by omega)]
  omega

theorem e_eq_w : c.e = c.w ↔ h.line = [] := by
  rw [← List.length_eq_zero_iff, ← hc.e_sub_w]
  constructor
  · intro he
    rw [he, BitVec.sub_self]
    rfl
  · intro he
    bv_omega

theorem r_eq_w : c.r = c.w ↔ h.taken = h.committed.length := by
  have hle := hc.le
  have hsub := hc.w_sub_r
  constructor
  · intro he
    rw [he, BitVec.sub_self] at hsub
    change 0 = _ at hsub
    omega
  · intro he
    have hzero : (c.w - c.r).toNat = 0 := by omega
    bv_omega

theorem next_char (hlt : h.taken < h.committed.length) :
    c.buf (Cons.slot c.r) = h.committed[h.taken] := by
  have hlen : (h.committed ++ h.line).length = h.committed.length + h.line.length :=
    List.length_append
  rw [hc.slot_taken, hc.ring h.taken le_rfl (by omega), List.getElem_append_left hlt]

/-! ## Typing -/

theorem last_char {init : List UInt8} (hline : h.line = init ++ [ch]) :
    c.buf (Cons.slot (c.e - 1)) = ch := by
  have hle := hc.le
  have hslot : Cons.slot (c.e - 1) =
      Fin.ofNat INPUT_BUF_SIZE (h.committed.length + init.length) := by
    apply Fin.ext
    have he : c.e - 1 = BitVec.ofNat 32 (h.committed.length + init.length) := by
      rw [hc.e, hline, List.length_append, List.length_singleton, ← Nat.add_assoc,
        BitVec.ofNat_add]
      exact BitVec.add_sub_cancel _ _
    rw [he]
    exact RingBuffer.toNat_mod (by decide) _
  have hlt : h.committed.length + init.length < (h.committed ++ h.line).length := by
    rw [hline, List.length_append, List.length_append, List.length_singleton]
    omega
  rw [hslot, hc.ring _ (by omega) hlt]
  simp only [hline]
  rw [List.getElem_append_right (by omega), List.getElem_append_right (by omega)]
  simp

theorem erase {init : List UInt8} (hline : h.line = init ++ [ch]) :
    Agree { c with e := c.e - 1 } { h with line := init } := by
  have hheld : { h with line := init }.held + 1 = h.held := by
    unfold Record.held
    rw [hline, List.length_append, List.length_singleton]
    rfl
  have hroom := hc.room
  refine ⟨hc.r, hc.w, ?_, hc.le, by omega, fun _ => by omega, ?_, ?_, hc.delivered, hc.zeroReads⟩
  · change c.e - 1 = _
    rw [hc.e, hline, List.length_append, List.length_singleton, ← Nat.add_assoc,
      BitVec.ofNat_add]
    exact BitVec.add_sub_cancel _ _
  · have hring := hc.ring
    rw [hline, ← List.append_assoc] at hring
    exact hring.of_append
  · intro hm
    apply hc.noNewline
    rw [hline]
    exact List.mem_append_left _ hm

end

theorem killLine (hc : Agree c h) : Agree (c.killLine h.line.length) { h with line := [] } := by
  induction hn : h.line.length generalizing c h with
  | zero =>
    have hnil := List.length_eq_zero_iff.mp hn
    unfold Cons.killLine
    rwa [← hnil]
  | succ n ih =>
    have hne : h.line ≠ [] := by
      rintro heq
      rw [heq] at hn
      cases hn
    obtain ⟨init, ch, hline⟩ : ∃ init ch, h.line = init ++ [ch] :=
      ⟨_, _, (List.dropLast_append_getLast hne).symm⟩
    have hch : ch ≠ newline := by
      rintro rfl
      apply hc.noNewline
      rw [hline]
      simp
    have hkill : c.e ≠ c.w ∧ c.buf (Cons.slot (c.e - 1)) ≠ newline := by
      rw [ne_eq, hc.e_eq_w, hc.last_char hline]
      exact ⟨hne, hch⟩
    rw [Cons.killLine, if_pos hkill]
    apply ih (hc.erase hline)
    rw [hline, List.length_append, List.length_singleton] at hn
    exact Nat.succ.inj hn

section
variable (hc : Agree c h) (hroom : h.held < INPUT_BUF_SIZE)
include hc hroom

theorem ring_push (ch : UInt8) : RingBuffer.Holds (Function.update c.buf (Cons.slot c.e) ch)
    (h.committed ++ (h.line ++ [ch])) h.taken := by
  have hheld := hc.held_eq
  have hlen : (h.committed ++ h.line).length = h.committed.length + h.line.length :=
    List.length_append
  have hslot : Cons.slot c.e = Fin.ofNat INPUT_BUF_SIZE (h.committed ++ h.line).length := by
    apply Fin.ext
    rw [hc.e, hlen]
    exact RingBuffer.toNat_mod (by decide) _
  rw [hslot, ← List.append_assoc]
  exact hc.ring.push (by omega) ch

theorem push (hch : ch ≠ newline) (hlast : h.held + 1 ≠ INPUT_BUF_SIZE) :
    Agree { c with buf := Function.update c.buf (Cons.slot c.e) ch, e := c.e + 1 }
      { h with line := h.line ++ [ch] } := by
  have hheld : { h with line := h.line ++ [ch] }.held = h.held + 1 := by
    unfold Record.held
    rw [List.length_append, List.length_singleton]
    rfl
  refine ⟨hc.r, hc.w, ?_, hc.le, by omega, fun _ => by omega, hc.ring_push hroom ch, ?_,
    hc.delivered, hc.zeroReads⟩
  · change c.e + 1 = BitVec.ofNat 32 (h.committed.length + (h.line ++ [ch]).length)
    rw [hc.e, List.length_append, List.length_singleton, ← Nat.add_assoc,
      BitVec.ofNat_add _ 1]
    rfl
  · rw [List.mem_append, List.mem_singleton, not_or]
    exact ⟨hc.noNewline, Ne.symm hch⟩

/-- A character ends the line, or fills the buffer. -/
theorem commit (ch : UInt8) :
    Agree { c with
        buf := Function.update c.buf (Cons.slot c.e) ch, e := c.e + 1, w := c.e + 1 }
      { h with line := [], committed := h.committed ++ (h.line ++ [ch]) } := by
  have hheld := hc.held_eq
  have hle := hc.le
  have hlen : (h.committed ++ (h.line ++ [ch])).length =
      h.committed.length + h.line.length + 1 := by
    rw [List.length_append, List.length_append, List.length_singleton, Nat.add_assoc]
  have he : c.e + 1 = BitVec.ofNat 32 (h.committed ++ (h.line ++ [ch])).length := by
    rw [hlen, hc.e, BitVec.ofNat_add _ 1]
    rfl
  refine ⟨hc.r, he, he, ?_, ?_, fun hne => absurd rfl hne, ?_, List.not_mem_nil, ?_, ?_⟩
  · change h.taken ≤ (h.committed ++ (h.line ++ [ch])).length
    omega
  · change (h.committed ++ (h.line ++ [ch])).length - h.taken + 0 ≤ _
    omega
  · have := hc.ring_push hroom ch
    rwa [← List.append_nil (h.committed ++ (h.line ++ [ch]))] at this
  · change h.delivered = ((h.committed ++ _).take h.taken).filter _
    rw [List.take_append_of_le_length hle]
    exact hc.delivered
  · change h.zeroReads = ((h.committed ++ _).take h.taken).count _
    rw [List.take_append_of_le_length hle]
    exact hc.zeroReads

end

theorem store (hc : Agree c h) (ch : UInt8) : Agree (c.store ch).1
    (if ch ≠ 0 ∧ h.held < INPUT_BUF_SIZE then
      let ch := if ch = carriageReturn then newline else ch
      if ch = newline ∨ ch = control 'D' ∨ h.held + 1 = INPUT_BUF_SIZE then
        { h with line := [], committed := h.committed ++ (h.line ++ [ch]) }
      else { h with line := h.line ++ [ch] }
    else h) := by
  have hsize : INPUT_BUF_SIZE < 2 ^ 32 := by decide
  have hlt : c.e - c.r < BitVec.ofNat 32 INPUT_BUF_SIZE ↔ h.held < INPUT_BUF_SIZE := by
    rw [BitVec.lt_def, hc.sub_r, BitVec.toNat_ofNat, Nat.mod_eq_of_lt hsize]
  unfold Cons.store
  by_cases hroom : ch ≠ 0 ∧ h.held < INPUT_BUF_SIZE
  · rw [if_pos hroom, if_pos ⟨hroom.1, hlt.mpr hroom.2⟩]
    generalize (if ch = carriageReturn then newline else ch) = ch'
    dsimp only
    have hfull : c.e + 1 - c.r = BitVec.ofNat 32 INPUT_BUF_SIZE ↔
        h.held + 1 = INPUT_BUF_SIZE := by
      have hsub := hc.sub_r
      have hnext : (c.e + 1 - c.r).toNat = (c.e - c.r).toNat + 1 := by
        have : (c.e - c.r).toNat < INPUT_BUF_SIZE := by omega
        unfold INPUT_BUF_SIZE at this
        bv_omega
      rw [← BitVec.toNat_inj, BitVec.toNat_ofNat, Nat.mod_eq_of_lt hsize, hnext, hsub]
    by_cases hend : ch' = newline ∨ ch' = control 'D' ∨ h.held + 1 = INPUT_BUF_SIZE
    · rw [if_pos hend, if_pos (by rwa [hfull])]
      exact hc.commit hroom.2 ch'
    · rw [if_neg hend, if_neg (by rwa [hfull])]
      rw [not_or, not_or] at hend
      exact hc.push hroom.2 hend.1 hend.2.2
  · rw [if_neg hroom, if_neg (by rwa [hlt])]
    exact hc

/-- The editing of the code is that of the record. -/
theorem input (hc : Agree c h) (ch : UInt8) : Agree (c.input ch).1 (h.type ch) := by
  unfold Cons.input Record.type
  by_cases hP : ch = control 'P'
  · rw [if_pos hP, if_pos hP]
    exact hc
  · rw [if_neg hP, if_neg hP]
    by_cases hU : ch = control 'U'
    · rw [if_pos hU, if_pos hU, hc.e_sub_w]
      exact hc.killLine
    · rw [if_neg hU, if_neg hU]
      by_cases hH : ch = control 'H' ∨ ch = delete
      · rw [if_pos hH, if_pos hH]
        by_cases hline : h.line = []
        · rw [if_neg (not_not.mpr (hc.e_eq_w.mpr hline)), hline, List.dropLast_nil, ← hline]
          exact hc
        · rw [if_pos (mt hc.e_eq_w.mp hline)]
          exact hc.erase (List.dropLast_append_getLast hline).symm
      · rw [if_neg hH, if_neg hH]
        exact hc.store ch

/-! ## Reading -/

theorem take (hc : Agree c h) (hlt : h.taken < h.committed.length)
    (hch : h.committed[h.taken] = ch) :
    Agree { c with r := c.r + 1 }
      { h with
        taken := h.taken + 1
        delivered := h.delivered ++ [ch].filter (· != control 'D')
        zeroReads := h.zeroReads + [ch].count (control 'D') } := by
  have hheld := hc.held_eq
  have hroom := hc.room
  have htake : h.committed.take (h.taken + 1) = h.committed.take h.taken ++ [ch] := by
    rw [List.take_succ_eq_append_getElem hlt, hch]
  refine ⟨?_, hc.w, hc.e, hlt, ?_, ?_, hc.ring.pop, hc.noNewline, ?_, ?_⟩
  · change c.r + 1 = BitVec.ofNat 32 (h.taken + 1)
    rw [hc.r, BitVec.ofNat_add _ 1]
    rfl
  · change h.committed.length - (h.taken + 1) + h.line.length ≤ _
    omega
  · intro _
    change h.committed.length - (h.taken + 1) + h.line.length < _
    omega
  · change _ = (h.committed.take (h.taken + 1)).filter _
    rw [htake, List.filter_append, ← hc.delivered]
  · change _ = (h.committed.take (h.taken + 1)).count _
    rw [htake, List.count_append, ← hc.zeroReads]

/-- A turn of the loop of `consoleread` that takes nothing. -/
theorem read_same (hc : Agree c h) (hstored : storedBy n x c = none)
    (hzero : ¬ (0 < target ∧ k = .unlock 0)) : Agree c (h.read target n x c c k) := by
  have heq : h.read target n x c c k = h := by
    unfold Record.read
    rw [if_pos rfl, hstored, if_neg hzero, Option.toList_none, List.append_nil]
  rw [heq]
  exact hc

theorem read_step (hc : Agree c h) (hle : n ≤ target) (hx : x ≠ .copyout false)
    (hr : readStep target n x c = some (c', k)) : Agree c' (h.read target n x c c' k) := by
  have hmove : c.r + 1 ≠ c.r := by bv_omega
  unfold readStep at hr
  by_cases hn : 0 < n
  · rw [if_pos hn] at hr
    by_cases hempty : c.r = c.w
    · rw [if_pos hempty] at hr
      cases hr
      apply hc.read_same
      · exact if_neg fun h => h.2.1 hempty
      · rintro ⟨_, hk⟩
        cases hk
    · rw [if_neg hempty] at hr
      have hlt : h.taken < h.committed.length :=
        lt_of_le_of_ne hc.le (mt hc.r_eq_w.mpr hempty)
      have hnext := hc.next_char hlt
      dsimp only at hr
      by_cases hD : c.buf (Cons.slot c.r) = control 'D'
      · have hstored : storedBy n x c = none := if_neg fun h => h.2.2 hD
        rw [if_pos hD] at hr
        cases hr
        by_cases hmid : n < target
        · rw [if_pos hmid]
          apply hc.read_same hstored
          rintro ⟨_, hk⟩
          have := Point.unlock.inj hk
          omega
        · rw [if_neg hmid]
          have hall : 0 < target ∧ Point.unlock (target - n) = .unlock 0 :=
            ⟨by omega, by rw [show target - n = 0 by omega]⟩
          unfold Record.read
          rw [if_neg hmove, hstored, if_pos hall]
          exact hc.take hlt (hnext.symm.trans hD)
      · rw [if_neg hD] at hr
        cases x with
        | copyout ok =>
          cases ok with
          | true =>
            have hstored : storedBy n (.copyout true) c = some h.committed[h.taken] := by
              unfold storedBy
              rw [if_pos ⟨hn, hempty, hD⟩, hnext]
            cases hr
            have hsome : ¬ (0 < target ∧
                (if c.buf (Cons.slot c.r) = newline then Point.unlock (target - (n - 1))
                  else .rLoop target (n - 1)) = .unlock 0) := by
              rintro ⟨_, hk⟩
              split at hk
              · have := Point.unlock.inj hk
                omega
              · cases hk
            have htake := hc.take hlt rfl
            rw [hnext] at hD
            unfold Record.read
            rw [if_neg hmove, hstored, if_neg hsome, Option.toList_some]
            rwa [List.filter_cons_of_pos (by rwa [bne_iff_ne]), List.filter_nil,
              List.count_singleton, if_neg (by rwa [beq_iff_eq]), Nat.add_zero] at htake
          | false => exact absurd rfl hx
        | read m => cases hr
        | intr ch => cases hr
  · rw [if_neg hn] at hr
    cases hr
    apply hc.read_same
    · exact if_neg fun h => hn h.1
    · rintro ⟨htarget, hk⟩
      have := Point.unlock.inj hk
      omega

end Agree

/-! ## Runs -/

/-- A read has not stored more than it was asked for. -/
def Counted : Point → Prop
  | .rLoop target n | .rKilled target n | .rSleep target n => n ≤ target
  | _ => True

theorem counted_readStep {target n : ℤ} {x : Input} {c c' : Cons} {k : Point} (hle : n ≤ target)
    (hr : readStep target n x c = some (c', k)) : Counted k := by
  unfold readStep at hr
  split at hr
  · split at hr
    · cases hr
      exact hle
    · dsimp only at hr
      split at hr
      · cases hr
        trivial
      · split at hr
        · cases hr
          split
          · trivial
          · change n - 1 ≤ target
            omega
        · cases hr
          trivial
        · cases hr
  · cases hr
    trivial

def CopyoutsSucceed {D : Type} (_ : Machine p D Unit Point) : Event p Input → Prop
  | .proc _ x => x ≠ .copyout false
  | _ => True

/-- The console after `consoleinit`, with nothing on record. -/
def Started (s : Machine p (Cons × Record) Unit Point) : Prop :=
  s = .start (⟨fun _ => 0, 0, 0, 0⟩, .empty) fun _ => .idle

/-- Every run of the console has its record. -/
theorem exists_recorded {s : Machine p Cons Unit Point}
    (h : Reach (step prog) CopyoutsSucceed Initial s) :
    ∃ s', Reach (step recorded) CopyoutsSucceed Started s' ∧ s'.erase = s := by
  apply observe_reach ?_ h
  rintro s rfl
  exact ⟨_, rfl, rfl⟩

theorem reach_agree {s : Machine p (Cons × Record) Unit Point}
    (h : Reach (step recorded) CopyoutsSucceed Started s) : Agree s.data.1 s.data.2 := by
  refine (point_reach (I := fun d => Agree d.1 d.2) (P := Counted) (· ≠ .copyout false)
    (fun _ _ _ hg => hg) ?_ ?_ ?_ h).1
  · rintro s rfl
    exact ⟨.start, fun _ => trivial⟩
  · intro q k a k' ha hk hl
    subst ha
    cases k with
    | consoleread n =>
      cases hl
      exact le_rfl
    | rKilled target n =>
      obtain ⟨b, rfl⟩ := hl
      cases b with
      | true => trivial
      | false => exact hk
    | rSleep target n =>
      cases hl
      exact hk
    | consoleintr ch | wake | unlock r =>
      cases hl
      trivial
    | idle | rLoop target n | edit ch => exact absurd hl id
  · intro q k f x d d' k' ha hk hx hf hd
    cases k with
    | idle =>
      cases ha
      obtain ⟨⟨c, k'⟩, hcall, heq⟩ := Option.map_eq_some_iff.mp hf
      obtain ⟨k'', hcall, heq'⟩ := Option.map_eq_some_iff.mp hcall
      cases heq'
      cases heq
      refine ⟨hd, ?_⟩
      cases x with
      | read n | intr ch =>
        cases hcall
        trivial
      | copyout ok => cases hcall
    | rLoop target n =>
      cases ha
      obtain ⟨⟨c, k'⟩, hr, heq⟩ := Option.map_eq_some_iff.mp hf
      cases heq
      exact ⟨hd.read_step hk hx hr, counted_readStep hk hr⟩
    | edit ch =>
      cases ha
      cases hf
      refine ⟨hd.input ch, ?_⟩
      unfold editStep
      split <;> trivial
    | consoleread n | rKilled target n | rSleep target n | consoleintr ch | wake | unlock r =>
      cases ha

/-- The characters in the buffer that can no longer be edited. -/
def Cons.committed (c : Cons) : List UInt8 :=
  (List.range (c.w - c.r).toNat).map fun i => c.buf (Cons.slot (c.r + BitVec.ofNat 32 i))

theorem Agree.committed_eq {c : Cons} {h : Record} (hc : Agree c h) :
    c.committed = h.committed.drop h.taken := by
  have hlen : c.committed.length = h.committed.length - h.taken := by
    unfold Cons.committed
    rw [List.length_map, List.length_range, hc.w_sub_r]
  apply List.ext_getElem
  · rw [hlen, List.length_drop]
  · intro i hi _
    rw [hlen] at hi
    have hslot : Cons.slot (c.r + BitVec.ofNat 32 i) =
        Fin.ofNat INPUT_BUF_SIZE (h.taken + i) := by
      apply Fin.ext
      rw [hc.r, ← BitVec.ofNat_add]
      exact RingBuffer.toNat_mod (by decide) _
    have hlt : h.taken + i < (h.committed ++ h.line).length := by
      rw [List.length_append]
      omega
    simp only [Cons.committed, List.getElem_map, List.getElem_range, hslot, List.getElem_drop]
    rw [hc.ring _ (Nat.le_add_right _ _) hlt, List.getElem_append_left]

/-- The characters that take back what was typed. -/
def Erases (ch : UInt8) : Prop := ch = control 'U' ∨ ch = control 'H' ∨ ch = delete

theorem Cons.killLine_eq (c : Cons) (fuel : ℕ) :
    ∃ e, c.killLine fuel = { c with e := e } := by
  induction fuel generalizing c with
  | zero => exact ⟨c.e, rfl⟩
  | succ fuel ih =>
    unfold Cons.killLine
    split
    · obtain ⟨e, he⟩ := ih { c with e := c.e - 1 }
      exact ⟨e, he⟩
    · exact ⟨c.e, rfl⟩

/-- Only the edit index moves. -/
theorem input_erases {c : Cons} {ch : UInt8} (hch : Erases ch) :
    ∃ e, (c.input ch).1 = { c with e := e } := by
  unfold Cons.input
  split
  · exact ⟨c.e, rfl⟩
  · split
    · exact c.killLine_eq _
    · rename_i hU
      have hH : ch = control 'H' ∨ ch = delete := hch.resolve_left hU
      rw [if_pos hH]
      dsimp only
      split
      · exact ⟨_, rfl⟩
      · exact ⟨c.e, rfl⟩

theorem line_erases {h : Record} {ch : UInt8} (hch : Erases ch) :
    (h.type ch).line.length ≤ h.line.length := by
  unfold Record.type
  split
  · exact le_rfl
  · split
    · exact Nat.zero_le _
    · rename_i hU
      have hH : ch = control 'H' ∨ ch = delete := hch.resolve_left hU
      rw [if_pos hH]
      change h.line.dropLast.length ≤ _
      rw [List.length_dropLast]
      exact Nat.sub_le _ _

/-- In every state of every run the indices are in order, a full buffer has a character to read, what
erases characters erases none that is committed, and what was committed is what reads have taken and
the buffer still has.  A read delivers what it takes but for the control-Ds, of which each one ends
one read with 0 bytes; one that comes after other characters ends their read and stays. -/
theorem console_line_discipline {s : Machine p (Cons × Record) Unit Point}
    (hreach : Reach (step recorded) CopyoutsSucceed Started s) {c : Cons} {h : Record}
    (hdata : s.data = (c, h)) :
    (c.w - c.r).toNat ≤ (c.e - c.r).toNat ∧ (c.e - c.r).toNat ≤ INPUT_BUF_SIZE ∧
    (c.e - c.r = BitVec.ofNat 32 INPUT_BUF_SIZE → c.r ≠ c.w) ∧
    (∀ ch, Erases ch → ∃ e, (c.input ch).1 = { c with e := e } ∧
      (e - c.w).toNat ≤ (c.e - c.w).toNat) ∧
    h.committed = h.committed.take h.taken ++ c.committed ∧
    h.delivered = (h.committed.take h.taken).filter (· != control 'D') ∧
    h.zeroReads = (h.committed.take h.taken).count (control 'D') ∧
    ∀ target n x, 0 < n → n < target → h.committed[h.taken]? = some (control 'D') →
      readStep target n x c = some (c, .unlock (target - n)) := by
  have hc : Agree c h := by
    have := reach_agree hreach
    rwa [hdata] at this
  have hheld := hc.held_eq
  have hsub := hc.sub_r
  have hw := hc.w_sub_r
  have hle := hc.le
  refine ⟨?_, ?_, ?_, ?_, ?_, hc.delivered, hc.zeroReads, ?_⟩
  · omega
  · rw [hsub]
    exact hc.room
  · intro hfull hempty
    have hsize : h.held = INPUT_BUF_SIZE := by
      rw [← hsub, hfull]
      rfl
    have hline : h.line = [] := by
      by_contra hne
      exact absurd hsize (hc.notFull hne).ne
    have htaken := hc.r_eq_w.mp hempty
    rw [hline, List.length_nil] at hheld
    have : (0 : ℕ) < INPUT_BUF_SIZE := by decide
    omega
  · intro ch hch
    obtain ⟨e, he⟩ := input_erases (c := c) hch
    refine ⟨e, he, ?_⟩
    have hsub' := (hc.input ch).e_sub_w
    rw [he] at hsub'
    change (e - c.w).toNat = _ at hsub'
    rw [hsub', hc.e_sub_w]
    exact line_erases hch
  · rw [hc.committed_eq, List.take_append_drop]
  · intro target n x hn hmid hD
    obtain ⟨hlt, hget⟩ := List.getElem?_eq_some_iff.mp hD
    have hne : c.r ≠ c.w := fun heq => by
      have := hc.r_eq_w.mp heq
      omega
    unfold readStep
    rw [if_pos hn, if_neg hne]
    dsimp only
    rw [hc.next_char hlt, hget, if_pos rfl, if_pos hmid]

/-- One process, idle, at the console. -/
def oneTerminal : Machine 1 (Cons × Record) Unit Point :=
  .start (⟨fun _ => 0, 0, 0, 0⟩, .empty) fun _ => .idle

/-- The keys x, backspace, y and control-D, and a read that takes the y. -/
def typeAndRead : List (Event 1 Input) :=
  List.flatten [resume 0, run 0 5 (.intr 120), run 0 4 (.intr (control 'H')), run 0 4 (.intr 121),
    run 0 7 (.intr (control 'D')), run 0 2 (.read 5), run 0 3 (.copyout true)]

/-- The y was delivered, and the control-D is still there for the next read. -/
theorem typeAndRead_line_discipline :
    (drive (step recorded) typeAndRead oneTerminal).data.2.delivered = [121] ∧
    (drive (step recorded) typeAndRead oneTerminal).data.1.committed = [control 'D'] ∧
    (drive (step recorded) typeAndRead oneTerminal).data.2.zeroReads = 0 := by
  have hreach : Reach (step recorded) CopyoutsSucceed Started
      (drive (step recorded) typeAndRead oneTerminal) := by
    have hstart : Started oneTerminal := rfl
    refine Reach.drive hstart ?_
    intro _ e he
    simp only [typeAndRead, resume, run, List.flatten_cons, List.flatten_nil, List.mem_append,
      List.mem_cons, List.mem_replicate, List.not_mem_nil] at he
    cases e with
    | proc q x =>
      rintro rfl
      simp at he
    | _ => trivial
  have hcommitted : (drive (step recorded) typeAndRead oneTerminal).data.2.committed =
      [121, control 'D'] := by decide +kernel
  have htaken : (drive (step recorded) typeAndRead oneTerminal).data.2.taken = 1 := by
    decide +kernel
  obtain ⟨_, _, _, _, hsplit, hdel, hzero, _⟩ :=
    console_line_discipline hreach (Prod.mk.eta).symm
  rw [hcommitted, htaken] at hsplit hdel hzero
  refine ⟨hdel, ?_, hzero⟩
  rw [List.take_succ_cons, List.take_zero, List.singleton_append, List.cons_inj_right] at hsplit
  exact hsplit.symm

end Xv6.Ipc.Console
