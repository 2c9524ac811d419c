import Mathlib.Data.List.TakeWhile
import Xv6.User.ShGrammar

/-! # `parsecmd`

The words of a command point into the text.  `nulterminate` writes a zero after each of them, and
none of these is inside of a word: so the strings in the command are the texts of the tokens.
-/
namespace Xv6.User.Sh

section
variable {W W' : Type} {V : W → W' → Prop} {cmd : Cmd W} {cmd' : Cmd W'}

def Cmd.words : Cmd W → List W
  | .exec argv => argv
  | .redir cmd file _ _ => cmd.words ++ [file]
  | .pipe left right => left.words ++ right.words
  | .list left right => left.words ++ right.words
  | .back cmd => cmd.words

theorem Cmd.Rel.words (h : Cmd.Rel V cmd cmd') : List.Forall₂ V cmd.words cmd'.words := by
  induction h with
  | exec h => exact h
  | redir mode fd h hfile ih => exact List.rel_append ih (.cons hfile .nil)
  | pipe hl hr ihl ihr => exact List.rel_append ihl ihr
  | list hl hr ihl ihr => exact List.rel_append ihl ihr
  | back h ih => exact ih

theorem Cmd.Rel.exists_of_mem (h : Cmd.Rel V cmd cmd') {w : W} (hw : w ∈ cmd.words) :
    ∃ t, V w t := by
  obtain ⟨i, hi, rfl⟩ := List.getElem_of_mem hw
  have hlen := h.words.length_eq
  exact ⟨_, List.Forall₂.get h.words hi (hlen ▸ hi)⟩

end

section
variable {mem mem' : Mem} {es n : ℕ}

/-- Strings that agree word by word make the same command. -/
theorem Cmd.Rel.text_eq {V : ℕ × ℕ → List UInt8 → Prop} {cmd : Cmd (ℕ × ℕ)} {T : Tree}
    (h : Cmd.Rel V cmd T) (hV : ∀ w ∈ cmd.words, ∀ t, V w t → cstring mem n w.1 = t) :
    cmd.text mem n = T := by
  induction h with
  | @exec argv argv' h =>
    rw [Cmd.text]
    congr 1
    change ∀ w ∈ argv, _ at hV
    induction h with
    | nil => rfl
    | cons hw h ih =>
      rw [List.map_cons, hV _ (List.mem_cons_self ..) _ hw,
        ih fun w hm => hV w (List.mem_cons_of_mem _ hm)]
  | redir mode fd h hfile ih =>
    rw [Cmd.text, ih fun w hm => hV w (List.mem_append_left _ hm),
      hV _ (List.mem_append_right _ (List.mem_singleton_self _)) _ hfile]
  | pipe hl hr ihl ihr =>
    rw [Cmd.text, ihl fun w hm => hV w (List.mem_append_left _ hm),
      ihr fun w hm => hV w (List.mem_append_right _ hm)]
  | list hl hr ihl ihr =>
    rw [Cmd.text, ihl fun w hm => hV w (List.mem_append_left _ hm),
      ihr fun w hm => hV w (List.mem_append_right _ hm)]
  | back h ih => rw [Cmd.text, ih hV]

/-- A zero is written at some places. -/
def zeroed (mem : Mem) (l : List ℕ) : Mem := fun a => if a ∈ l then 0 else mem a

theorem zeroed_append (mem : Mem) (l l' : List ℕ) :
    zeroed mem (l ++ l') = zeroed (zeroed mem l) l' := by
  funext a
  unfold zeroed
  by_cases h : a ∈ l <;> by_cases h' : a ∈ l' <;> simp [h, h']

theorem zeroed_singleton (mem : Mem) (a : ℕ) : zeroed mem [a] = Function.update mem a 0 := by
  funext b
  simp [zeroed, Function.update_apply]

theorem foldl_update_eq_zeroed (mem : Mem) (argv : List (ℕ × ℕ)) :
    argv.foldl (fun mem w => Function.update mem w.2 0) mem = zeroed mem (argv.map (·.2)) := by
  induction argv generalizing mem with
  | nil =>
    funext a
    exact (if_neg List.not_mem_nil).symm
  | cons w argv ih =>
    rw [List.foldl_cons, ih, ← zeroed_singleton, ← zeroed_append]
    rfl

theorem nulterminate_eq (mem : Mem) {cmd : Cmd (ℕ × ℕ)} (h : ∀ w ∈ cmd.words, w.1 ≠ 0) :
    nulterminate mem cmd = zeroed mem (cmd.words.map (·.2)) := by
  induction cmd generalizing mem with
  | exec argv =>
    have hall : argv.takeWhile (fun w => w.1 != 0) = argv :=
      List.takeWhile_eq_self_iff.mpr fun w hw => bne_iff_ne.mpr (h w hw)
    rw [nulterminate, hall]
    exact foldl_update_eq_zeroed mem argv
  | redir cmd file mode fd ih =>
    rw [nulterminate, ih mem fun w hw => h w (List.mem_append_left _ hw), ← zeroed_singleton,
      ← zeroed_append, Cmd.words, List.map_append]
    rfl
  | pipe left right ihl ihr =>
    rw [nulterminate, ihl mem fun w hw => h w (List.mem_append_left _ hw),
      ihr _ fun w hw => h w (List.mem_append_right _ hw), ← zeroed_append, Cmd.words,
      List.map_append]
  | list left right ihl ihr =>
    rw [nulterminate, ihl mem fun w hw => h w (List.mem_append_left _ hw),
      ihr _ fun w hw => h w (List.mem_append_right _ hw), ← zeroed_append, Cmd.words,
      List.map_append]
  | back cmd ih => exact ih mem h

/-- Zeros after words leave each word as it is, and end it. -/
theorem Spans.cstring_zeroed {w : ℕ × ℕ} {t : List UInt8} {l : List ℕ} (h : Spans mem es w t)
    (hw : w.2 ∈ l) (hl : ∀ a ∈ l, a = es ∨ inWord (mem a) = false) (hn : es < n) :
    cstring (zeroed mem l) n w.1 = t := by
  have hfinish := h.finish
  have hle := h.le
  apply cstring_of_holds
  · rw [holds_append]
    constructor
    · intro i hi
      have hbyte := h.holds i hi
      have hnot : w.1 + i ∉ l := by
        intro hm
        rcases hl _ hm with heq | hout
        · omega
        · rw [hbyte, (h.inside _ (List.getElem_mem hi)).1] at hout
          exact Bool.false_ne_true hout.symm
      rw [zeroed, if_neg hnot, hbyte]
    · rw [← hfinish, holds_cons]
      exact ⟨if_pos hw, holds_nil _ _⟩
  · intro hm
    exact (h.inside 0 hm).2 rfl
  · omega

theorem text_nulterminate {cmd : Cmd (ℕ × ℕ)} {T : Tree} (h : Cmd.Rel (Spans mem es) cmd T)
    (hn : es < n) : cmd.text (nulterminate mem cmd) n = T := by
  have hpos : ∀ w ∈ cmd.words, w.1 ≠ 0 := by
    intro w hw
    obtain ⟨t, ht⟩ := h.exists_of_mem hw
    exact Nat.ne_of_gt ht.pos
  have hends : ∀ a ∈ cmd.words.map (·.2), a = es ∨ inWord (mem a) = false := by
    intro a ha
    obtain ⟨w, hw, rfl⟩ := List.mem_map.mp ha
    obtain ⟨t, ht⟩ := h.exists_of_mem hw
    exact ht.outside
  rw [nulterminate_eq mem hpos]
  apply h.text_eq
  intro w hw t ht
  exact ht.cstring_zeroed (List.mem_map_of_mem hw) hends hn

end

/-! ## The result -/

section
variable {mem : Mem} {fuel s n : ℕ} {str : List UInt8}

/-- Whether `parsecmd` returns or panics is what the parser does on the tokens. -/
theorem parsecmd_tokens (hstr : Holds mem s (str ++ [0])) (hzero : 0 ∉ str) (hs : 0 < s)
    (hfuel : str.length ≤ fuel) (hn : s + str.length < n) :
    match parseline tokens fuel (lex str) with
    | .ok (T, []) => ∃ cmd mem', parsecmd mem fuel s = .ok (cmd, mem') ∧ cmd.text mem' n = T
    | .ok (_, _ :: _) => parsecmd mem fuel s = .error (.panic "syntax")
    | .error e => parsecmd mem fuel s = .error e := by
  have hes : s + strlen mem fuel s = s + str.length := by rw [strlen_of_holds hstr hzero hfuel]
  have hreads : Reads mem (s + str.length) s (lex str) := ⟨str, ⟨hstr, rfl, hzero, hs⟩, rfl⟩
  have hagree := (parse_agree (input_sim mem (s + str.length)) fuel).1 _ _ hreads
  simp only [parsecmd, hes]
  generalize parseline (input mem (s + str.length)) fuel s = m at hagree
  generalize parseline tokens fuel (lex str) = m' at hagree
  cases hagree with
  | error e => rfl
  | @ok cmd T s' rest hrel hrest =>
    obtain ⟨l, hl, rfl⟩ := hrest
    have hend := (hl.skip isBlank).eq_stop
    rw [← lex_skip l]
    cases hskip : l.dropWhile isBlank with
    | nil =>
      rw [lex_nil]
      exact ⟨cmd, nulterminate mem cmd, if_pos (hend.mpr hskip), text_nulterminate hrel hn⟩
    | cons c l' =>
      have hrest := hl.skip isBlank
      rw [hskip] at hrest
      obtain ⟨t, used, rest, hstarts, -⟩ := hrest.token (head_dropWhile_isBlank hskip)
      rw [hstarts.lex]
      exact if_neg fun heq => List.cons_ne_nil c l' (hskip.symm.trans (hend.mp heq))

/-- `parsecmd` returns for the texts of the grammar, with the command that the derivation stands
for, and panics for all others. -/
theorem parsecmd_grammar (hstr : Holds mem s (str ++ [0])) (hzero : 0 ∉ str) (hs : 0 < s)
    (hfuel : 4 * str.length + 4 ≤ fuel) (hn : s + str.length < n) :
    (∀ T, (∃ cmd mem', parsecmd mem fuel s = .ok (cmd, mem') ∧ cmd.text mem' n = T) ↔
      Derives .line (lex str) T) ∧
    ((¬ ∃ T, Derives .line (lex str) T) → ∃ msg, parsecmd mem fuel s = .error (.panic msg)) := by
  have hlen := length_lex_le str
  have hneed : Sym.line.need (lex str).length ≤ fuel := by
    change 4 * _ + 4 ≤ _
    omega
  have hends := (parse_ends fuel).1 .line (lex str) hneed
  have hshort : str.length ≤ fuel := by omega
  have htokens := parsecmd_tokens hstr hzero hs hshort hn
  have hcomplete : ∀ T, Derives .line (lex str) T →
      parseline tokens fuel (lex str) = .ok (T, []) := by
    intro T hT
    have := hT.parse [] fuel nofun (by rwa [List.append_nil])
    rwa [List.append_nil] at this
  change Ends (parseline tokens fuel (lex str)) _ at hends
  generalize parseline tokens fuel (lex str) = m at hends htokens hcomplete
  match m with
  | .ok (T, []) =>
    obtain ⟨used, hused, hT⟩ := hends
    rw [List.append_nil] at hused
    subst hused
    obtain ⟨cmd, mem', hparse, htext⟩ := htokens
    refine ⟨fun T' => ⟨?_, ?_⟩, fun hno => absurd ⟨T, hT⟩ hno⟩
    · rintro ⟨cmd', mem'', hparse', rfl⟩
      cases hparse.symm.trans hparse'
      rwa [htext]
    · intro hT'
      cases hcomplete T' hT'
      exact ⟨cmd, mem', hparse, htext⟩
  | .ok (T, t :: rest) =>
    change parsecmd mem fuel s = _ at htokens
    rw [htokens]
    refine ⟨fun T' => ⟨?_, ?_⟩, fun _ => ⟨_, rfl⟩⟩
    · rintro ⟨_, _, h, -⟩
      cases h
    · intro hT'
      cases hcomplete T' hT'
  | .error (.panic msg) =>
    change parsecmd mem fuel s = _ at htokens
    rw [htokens]
    refine ⟨fun T' => ⟨?_, ?_⟩, fun _ => ⟨msg, rfl⟩⟩
    · rintro ⟨_, _, h, -⟩
      cases h
    · intro hT'
      cases hcomplete T' hT'

end

def sample : List UInt8 := ['(', 'a', '|', 'b', '>', 'c', ')', '&', ';', 'd'].map Char.toUInt8

def sampleMem : Mem := fun a => sample.getD (a - 1) 0

theorem parsecmd_sample :
    (∀ T, (∃ cmd mem', parsecmd sampleMem 44 1 = .ok (cmd, mem') ∧ cmd.text mem' 12 = T) ↔
      Derives .line (lex sample) T) ∧
    ((¬ ∃ T, Derives .line (lex sample) T) →
      ∃ msg, parsecmd sampleMem 44 1 = .error (.panic msg)) ∧
    ((parsecmd sampleMem 44 1).toOption.map fun r => r.1.text r.2 12) =
      some (.list (.back (.pipe (.exec [[97]]) (.redir (.exec [[98]]) [99] 0x601 1)))
        (.exec [[100]])) := by
  have hholds : Holds sampleMem 1 (sample ++ [0]) := by
    unfold Holds
    decide
  obtain ⟨hiff, hpanic⟩ := @parsecmd_grammar sampleMem 44 1 12 sample hholds (by decide)
    (by decide) (by decide) (by decide)
  exact ⟨hiff, hpanic, by decide +kernel⟩

end Xv6.User.Sh
