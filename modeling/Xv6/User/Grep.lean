import Xv6.User.Regexp
import Xv6.User.Ulib

/-! # grep

The loop of grep.c over the input.  Addresses count from `buf`.
-/
namespace Xv6.User

def BUFSIZE : ℕ := 1024

def NEWLINE : UInt8 := 10

/-- How many bytes `read` returns when it is asked for `want` and `avail` are left: some of them,
as `size` decides. -/
def readSize (size want avail : ℕ) : ℕ := if want = 0 then 0 else min (max 1 size) (min want avail)

def store (mem : Mem) (s : ℕ) (l : List UInt8) : Mem :=
  fun a => if s ≤ a ∧ a < s + l.length then l.getD (a - s) 0 else mem a

def load (mem : Mem) (s n : ℕ) : List UInt8 := (List.range n).map fun i => mem (s + i)

/-- The inner loop: write the lines that match.  Returns the place after the last line, the buffer
and the output. -/
def grepLines (pattern : List UInt8) : (fuel p : ℕ) → Mem → List UInt8 → ℕ × Mem × List UInt8
  | 0, p, buf, out => (p, buf, out)
  | fuel + 1, p, buf, out =>
    match strchr buf NEWLINE (BUFSIZE - p) p with
    | none => (p, buf, out)
    | some q =>
      let cut := Function.update buf q 0
      if matchText pattern (cstring cut (BUFSIZE - p) p) then
        let buf := Function.update cut q NEWLINE
        grepLines pattern fuel (q + 1) buf (out ++ load buf p (q + 1 - p))
      else grepLines pattern fuel (q + 1) cut out

/-- The outer loop.  `sizes` decides how much each `read` returns, `rest` is still to be read. -/
def grepLoop (pattern : List UInt8) (sizes : ℕ → ℕ) :
    (fuel i m : ℕ) → Mem → (rest out : List UInt8) → List UInt8
  | 0, _, _, _, _, out => out
  | fuel + 1, i, m, buf, rest, out =>
    let n := readSize (sizes i) (BUFSIZE - m - 1) rest.length
    if 0 < n then
      let buf := Function.update (store buf m (rest.take n)) (m + n) 0
      let (p, buf, out) := grepLines pattern BUFSIZE 0 buf out
      if 0 < m + n then
        grepLoop pattern sizes fuel (i + 1) (m + n - p) (memmove buf 0 p (m + n - p)) (rest.drop n) out
      else grepLoop pattern sizes fuel (i + 1) (m + n) buf (rest.drop n) out
    else out

/-- What `grep` writes.  Each turn of its loop reads a byte at least. -/
def grep (pattern : List UInt8) (sizes : ℕ → ℕ) (buf : Mem) (input : List UInt8) : List UInt8 :=
  grepLoop pattern sizes (input.length + 1) 0 0 buf input []

def unlines (lines : List (List UInt8)) : List UInt8 := lines.flatMap (· ++ [NEWLINE])

def selected (pattern : List UInt8) (lines : List (List UInt8)) : List UInt8 :=
  unlines (lines.filter (matchText pattern))

section
variable {buf : Mem} {s m n p : ℕ} {l text tail rest out pattern : List UInt8}
  {lines : List (List UInt8)}

theorem holds_store (mem : Mem) (s : ℕ) (l : List UInt8) : Holds (store mem s l) s l := by
  intro i hi
  unfold store
  rw [if_pos (by omega), Nat.add_sub_cancel_left, List.getD_eq_getElem?_getD,
    List.getElem?_eq_getElem hi, Option.getD_some]

theorem load_of_holds (h : Holds buf s l) : load buf s l.length = l := by
  unfold load
  apply List.ext_getElem
  · rw [List.length_map, List.length_range]
  · intro i _ hi
    rw [List.getElem_map, List.getElem_range]
    exact h i hi

theorem Holds.update (h : Holds buf s l) {q : ℕ} (hq : q < s ∨ s + l.length ≤ q) (x : UInt8) :
    Holds (Function.update buf q x) s l :=
  h.congr fun a _ _ => Function.update_of_ne (by omega) ..

/-! ## The inner loop -/

/-- A line without a zero or a newline. -/
def IsLine (l : List UInt8) : Prop := 0 ∉ l ∧ NEWLINE ∉ l

theorem unlines_cons (l : List UInt8) (lines : List (List UInt8)) :
    unlines (l :: lines) = l ++ NEWLINE :: unlines lines := by
  unfold unlines
  rw [List.flatMap_cons, List.append_assoc]
  rfl

theorem unlines_append (lines lines' : List (List UInt8)) :
    unlines (lines ++ lines') = unlines lines ++ unlines lines' :=
  List.flatMap_append

/-- A text that goes on to be lines either has no newline, or begins with the first line. -/
theorem line_cases (hl : IsLine l) (h : text ++ rest = l ++ NEWLINE :: tail) :
    (NEWLINE ∉ text ∧ ∃ more, l = text ++ more ∧ rest = more ++ NEWLINE :: tail) ∨
      ∃ text', text = l ++ NEWLINE :: text' ∧ text' ++ rest = tail := by
  rw [List.append_eq_append_iff] at h
  rcases h with ⟨more, rfl, hrest⟩ | ⟨text', rfl, htail⟩
  · refine Or.inl ⟨fun hm => hl.2 (List.mem_append_left more hm), more, rfl, hrest⟩
  · cases text' with
    | nil =>
      exact Or.inl ⟨by rw [List.append_nil]; exact hl.2, [], by simp, htail.symm⟩
    | cons x text' =>
      rw [List.cons_append, List.cons.injEq] at htail
      obtain ⟨rfl, rfl⟩ := htail
      exact Or.inr ⟨text', rfl, rfl⟩

theorem grepLines_none {fuel : ℕ} (h : strchr buf NEWLINE (BUFSIZE - p) p = none) :
    grepLines pattern fuel p buf out = (p, buf, out) := by
  cases fuel with
  | zero => rfl
  | succ fuel => rw [grepLines, h]

/-- The inner loop gets through the lines that are complete in the buffer, and leaves the rest. -/
theorem grepLines_spec (pattern out : List UInt8) {fuel : ℕ} (hbuf : Holds buf p (text ++ [0])) (h0 : 0 ∉ text)
    (hlen : p + text.length < BUFSIZE) (hfuel : text.length < fuel)
    (hlines : ∀ l ∈ lines, IsLine l) (htext : text ++ rest = unlines lines) :
    ∃ first last tail buf', lines = first ++ last ∧ text = unlines first ++ tail ∧
      NEWLINE ∉ tail ∧ tail ++ rest = unlines last ∧
      Holds buf' (p + (unlines first).length) (tail ++ [0]) ∧
      grepLines pattern fuel p buf out =
        (p + (unlines first).length, buf', out ++ selected pattern first) := by
  induction lines generalizing fuel p text buf out with
  | nil =>
    obtain ⟨rfl, rfl⟩ := List.append_eq_nil_iff.mp htext
    refine ⟨[], [], [], buf, rfl, rfl, List.not_mem_nil, rfl, hbuf, ?_⟩
    rw [grepLines_none (strchr_none hbuf List.not_mem_nil (by rw [List.length_nil] at *; omega))]
    simp [selected, unlines]
  | cons l lines ih =>
    obtain ⟨fuel, rfl⟩ := Nat.exists_eq_succ_of_ne_zero (Nat.ne_of_gt (Nat.zero_lt_of_lt hfuel))
    have hl := hlines l (List.mem_cons_self ..)
    rw [unlines_cons] at htext
    rcases line_cases hl htext with ⟨hno, -⟩ | ⟨text', rfl, hrest⟩
    · refine ⟨[], l :: lines, text, buf, rfl, rfl, hno, ?_, hbuf, ?_⟩
      · rw [htext, unlines_cons]
      · rw [grepLines_none (strchr_none hbuf hno (by omega))]
        simp [selected, unlines]
    · rw [List.append_assoc, holds_append, List.cons_append, holds_cons] at hbuf
      obtain ⟨hline, hnl, hnext⟩ := hbuf
      have hlength : (l ++ NEWLINE :: text').length = l.length + 1 + text'.length := by
        rw [List.length_append, List.length_cons]
        omega
      rw [hlength] at hlen hfuel
      have h0' : 0 ∉ text' := fun hm => h0 (List.mem_append_right _ (List.mem_cons_of_mem _ hm))
      have hfound : strchr buf NEWLINE (BUFSIZE - p) p = some (p + l.length) := by
        apply strchr_found _ hl (by decide) (by omega)
        rw [holds_append, holds_cons]
        exact ⟨hline, hnl, holds_nil _ _⟩
      -- the newline becomes the end of the string
      have hcut : cstring (Function.update buf (p + l.length) 0) (BUFSIZE - p) p = l := by
        apply cstring_of_holds _ hl.1 (by omega)
        rw [holds_append, holds_cons]
        exact ⟨hline.update (Or.inr (Nat.le_refl _)) 0, Function.update_self .., holds_nil _ _⟩
      rw [grepLines, hfound]
      dsimp only
      rw [hcut]
      have hlines' (l' : List UInt8) (hl' : l' ∈ lines) : IsLine l' :=
        hlines l' (List.mem_cons_of_mem _ hl')
      have hlen' : p + l.length + 1 + text'.length < BUFSIZE := by omega
      have hfuel' : text'.length < fuel := by omega
      by_cases hmatch : matchText pattern l = true
      · have hback : Function.update buf (p + l.length) NEWLINE = buf := by
          rw [← hnl, Function.update_eq_self]
        rw [if_pos hmatch, Function.update_idem, hback]
        have hwritten : load buf p (p + l.length + 1 - p) = l ++ [NEWLINE] := by
          have hall : Holds buf p (l ++ [NEWLINE]) := by
            rw [holds_append, holds_cons]
            exact ⟨hline, hnl, holds_nil _ _⟩
          rw [← load_of_holds hall, List.length_append, List.length_singleton]
          congr 1
          omega
        obtain ⟨first, last, tail, buf', rfl, rfl, hno, htail, hb, hrun⟩ :=
          ih (out ++ (l ++ [NEWLINE])) hnext h0' hlen' hfuel' hlines' hrest
        refine ⟨l :: first, last, tail, buf', rfl, ?_, hno, htail, ?_, ?_⟩
        · rw [unlines_cons]
          simp
        · rw [unlines_cons, List.length_append, List.length_cons]
          convert hb using 1
          omega
        · rw [hwritten, hrun, unlines_cons, List.length_append, List.length_cons]
          refine Prod.ext (by dsimp only; omega) (Prod.ext rfl ?_)
          dsimp only
          unfold selected
          rw [List.filter_cons_of_pos hmatch, unlines_cons]
          simp
      · rw [if_neg hmatch]
        obtain ⟨first, last, tail, buf', rfl, rfl, hno, htail, hb, hrun⟩ :=
          ih out (hnext.update (Or.inl (Nat.lt_succ_self _)) 0) h0' hlen' hfuel' hlines' hrest
        refine ⟨l :: first, last, tail, buf', rfl, ?_, hno, htail, ?_, ?_⟩
        · rw [unlines_cons]
          simp
        · rw [unlines_cons, List.length_append, List.length_cons]
          convert hb using 1
          omega
        · rw [hrun, unlines_cons, List.length_append, List.length_cons]
          refine Prod.ext (by dsimp only; omega) (Prod.ext rfl ?_)
          dsimp only
          unfold selected
          rw [List.filter_cons_of_neg hmatch]

/-! ## The outer loop -/

theorem readSize_pos (size : ℕ) {want avail : ℕ} (hwant : 0 < want) (havail : 0 < avail) :
    0 < readSize size want avail ∧ readSize size want avail ≤ want ∧
      readSize size want avail ≤ avail := by
  unfold readSize
  rw [if_neg (by omega)]
  omega

/-- What is left of a line in the buffer is shorter than the line. -/
theorem pending_lt {pending : List UInt8} (hlines : ∀ l ∈ lines, l.length + 1 < BUFSIZE)
    (hno : NEWLINE ∉ pending) (h : pending ++ rest = unlines lines) :
    pending.length + 1 < BUFSIZE := by
  cases lines with
  | nil =>
    obtain ⟨rfl, -⟩ := List.append_eq_nil_iff.mp h
    decide
  | cons l lines =>
    rw [unlines_cons, List.append_eq_append_iff] at h
    have hl := hlines l (List.mem_cons_self ..)
    rcases h with ⟨more, rfl, -⟩ | ⟨more, rfl, htail⟩
    · rw [List.length_append] at hl
      omega
    · cases more with
      | nil => rwa [List.append_nil]
      | cons x more =>
        rw [List.cons_append, List.cons.injEq] at htail
        apply absurd _ hno
        rw [← htail.1]
        simp

theorem grepLoop_spec (pattern out : List UInt8) (sizes : ℕ → ℕ) {fuel : ℕ} (i : ℕ)
    {pending : List UInt8} (hbuf : Holds buf 0 pending) (hno : NEWLINE ∉ pending)
    (hlines : ∀ l ∈ lines, IsLine l ∧ l.length + 1 < BUFSIZE)
    (htext : pending ++ rest = unlines lines) (hfuel : rest.length < fuel) :
    grepLoop pattern sizes fuel i pending.length buf rest out = out ++ selected pattern lines := by
  induction fuel generalizing i buf rest out pending lines with
  | zero => exact absurd hfuel (Nat.not_lt_zero _)
  | succ fuel ih =>
    have hpend := pending_lt (fun l hl => (hlines l hl).2) hno htext
    unfold grepLoop
    dsimp only
    by_cases hrest : rest = []
    · subst hrest
      have hnone : lines = [] := by
        cases lines with
        | nil => rfl
        | cons l lines =>
          rw [List.append_nil, unlines_cons] at htext
          rw [htext] at hno
          simp at hno
      have hzero : readSize (sizes i) (BUFSIZE - pending.length - 1) ([] : List UInt8).length = 0 := by
        unfold readSize
        rw [List.length_nil]
        split
        · rfl
        · omega
      rw [hzero, if_neg (Nat.lt_irrefl 0), hnone]
      simp [selected, unlines]
    · obtain ⟨hpos, hwant, havail⟩ := readSize_pos (sizes i)
        (by omega : 0 < BUFSIZE - pending.length - 1) (List.length_pos_iff.mpr hrest)
      generalize readSize (sizes i) (BUFSIZE - pending.length - 1) rest.length = n at *
      rw [if_pos hpos]
      have hchunk : (rest.take n).length = n := by
        rw [List.length_take]
        omega
      have hlen : (pending ++ rest.take n).length = pending.length + n := by
        rw [List.length_append, hchunk]
      have htext' : (pending ++ rest.take n) ++ rest.drop n = unlines lines := by
        rw [List.append_assoc, List.take_append_drop, htext]
      have hread : Holds (Function.update (store buf pending.length (rest.take n))
          (pending.length + n) 0) 0 ((pending ++ rest.take n) ++ [0]) := by
        rw [holds_append, holds_append, holds_cons, hlen, Nat.zero_add, Nat.zero_add]
        refine ⟨⟨?_, ?_⟩, Function.update_self .., holds_nil _ _⟩
        · apply Holds.update _ (Or.inr (by omega))
          apply hbuf.congr
          intro a _ ha
          exact if_neg (by omega)
        · exact (holds_store buf pending.length _).update (Or.inr (by omega)) 0
      have h0 : 0 ∉ pending ++ rest.take n := by
        intro hm
        have hin : 0 ∈ unlines lines := by
          rw [← htext']
          exact List.mem_append_left _ hm
        unfold unlines at hin
        rw [List.mem_flatMap] at hin
        obtain ⟨l, hl, hzero⟩ := hin
        rcases List.mem_append.mp hzero with hz | hz
        · exact (hlines l hl).1.1 hz
        · cases List.mem_singleton.mp hz
      have hroom : (pending ++ rest.take n).length < BUFSIZE := by omega
      obtain ⟨first, last, tail, buf', rfl, hsplit, hno', htail, hb, hrun⟩ :=
        grepLines_spec pattern out hread h0 (by rwa [Nat.zero_add]) hroom
          (fun l hl => (hlines l hl).1) htext'
      rw [hrun]
      dsimp only
      have hm : pending.length + n - (0 + (unlines first).length) = tail.length := by
        rw [← hlen, hsplit, List.length_append]
        omega
      have hmoved : Holds (moved buf' 0 (0 + (unlines first).length) tail.length) 0 tail := by
        intro j hj
        have hj' : j < (tail ++ [0]).length := by
          rw [List.length_append]
          omega
        have := hb j hj'
        rw [List.getElem_append_left hj] at this
        unfold moved
        rw [if_pos (by omega), ← this]
        congr 1
        omega
      have hfuel' : (rest.drop n).length < fuel := by
        rw [List.length_drop]
        omega
      rw [if_pos (by omega), hm, memmove_eq,
        ih _ (i + 1) hmoved hno' (fun l hl => hlines l (List.mem_append_right _ hl)) htail hfuel']
      unfold selected
      rw [List.filter_append, unlines_append, List.append_assoc]

end

/-- With a full buffer `read` is asked for nothing, which looks like the end of the input. -/
theorem grepLoop_full (pattern : List UInt8) (sizes : ℕ → ℕ) (fuel i : ℕ) (buf : Mem)
    (rest out : List UInt8) : grepLoop pattern sizes fuel i (BUFSIZE - 1) buf rest out = out := by
  cases fuel with
  | zero => rfl
  | succ fuel => rfl

theorem grep_overlong (pattern : List UInt8) (buf : Mem) {l : List UInt8} (hl : NEWLINE ∉ l)
    (hlen : l.length = BUFSIZE - 1) : grep pattern (fun _ => BUFSIZE) buf (unlines [l]) = [] := by
  have hinput : unlines [l] = l ++ [NEWLINE] := List.append_nil _
  have hsize : readSize BUFSIZE (BUFSIZE - 0 - 1) (l ++ [NEWLINE]).length = BUFSIZE - 1 := by
    rw [List.length_append, hlen]
    rfl
  have htake : (l ++ [NEWLINE]).take (BUFSIZE - 1) = l := by
    rw [← hlen, List.take_left]
  have hread : Holds (Function.update (store buf 0 l) (0 + (BUFSIZE - 1)) 0) 0 (l ++ [0]) := by
    rw [holds_append, holds_cons, hlen]
    exact ⟨(holds_store buf 0 l).update (Or.inr (by omega)) 0, Function.update_self .., holds_nil _ _⟩
  have hnone : strchr (Function.update (store buf 0 l) (0 + (BUFSIZE - 1)) 0) NEWLINE (BUFSIZE - 0) 0 =
      none := strchr_none hread hl (by rw [hlen]; decide)
  unfold grep
  rw [hinput, grepLoop]
  dsimp only
  rw [hsize, htake, grepLines_none hnone]
  exact grepLoop_full ..

theorem matchText_nil (text : List UInt8) : matchText [] text = true := by
  cases text <;> simp [matchText, matchFrom, matchhere]

end Xv6.User
