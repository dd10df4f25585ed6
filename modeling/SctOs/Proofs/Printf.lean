import SctOs.Printf

/-!
# Formatted output

The digit loop leaves a number's digits at the end of its part of the buffer (`putDigits_run`), and
each directive writes its argument's text (`directive_run`). Between pieces of a format the scanner
has written the text of those before, up to a pending range of ordinary characters (`Scanned`).
-/

namespace SctOs

namespace Printf

variable (env : Env) {b : ℕ} {n : ℤ}

/-! ## Numbers -/

theorem digits_mirrored {k : ℤ} (h : k.natAbs < 16) :
    digits[(k + 15).toNat]! = ch (Nat.digitChar k.natAbs) := by
  obtain ⟨h₁, h₂⟩ : -16 < k ∧ k < 16 := by omega
  interval_cases k <;> rfl

theorem getDigit_eq (hb : 1 < b) (hb' : b ≤ 16) :
    getDigit n b = ch (Nat.digitChar (n.natAbs % b)) := by
  have hm : (n.tmod b).natAbs = n.natAbs % b := by rw [Int.natAbs_tmod, Int.natAbs_natCast]
  have hlt := Nat.mod_lt n.natAbs (Nat.lt_of_succ_lt hb)
  rw [getDigit, digits_mirrored (by omega), hm]

theorem rendered_eq (hb : 1 < b) (m : ℕ) : rendered b m
    = if m < b then [ch (Nat.digitChar m)]
      else rendered b (m / b) ++ [ch (Nat.digitChar (m % b))] := by
  rw [rendered, Nat.toDigits_eq_if hb]
  split_ifs
  · rfl
  · rw [List.map_append]
    rfl

theorem length_rendered_le (hb : 1 < b) {k m : ℕ} (hk : 0 < k) (h : m < b ^ k) :
    (rendered b m).length ≤ k := by
  rw [rendered, List.length_map]
  exact (Nat.length_toDigits_le_iff hb hk).2 h

theorem length_rendered_pos (b m : ℕ) : 0 < (rendered b m).length := by
  rw [rendered, List.length_map]
  exact Nat.length_toDigits_pos

/-- The digit loop writes the digits of a number's absolute value down from the end, and nothing
before them. -/
theorem putDigits_run (hb : 1 < b) (hb' : b ≤ 16) : ∀ (stack : ℕ) (n : ℤ) (mem : List Byte),
    stack ≤ mem.length → (rendered b n.natAbs).length ≤ stack →
    putDigits b stack n mem = .ok (stack - (rendered b n.natAbs).length,
      mem.take (stack - (rendered b n.natAbs).length) ++ rendered b n.natAbs ++ mem.drop stack)
  | 0, n, mem, _, h => absurd h (Nat.not_le_of_lt (length_rendered_pos b _))
  | stack + 1, n, mem, hs, h => by
    have hdiv : (n.tdiv b).natAbs = n.natAbs / b := by
      rw [Int.natAbs_tdiv, Int.natAbs_natCast]
      rfl
    have hne : n.tdiv b = 0 ↔ n.natAbs < b := by
      rw [← Int.natAbs_eq_zero, hdiv, Nat.div_eq_zero_iff_lt (by omega)]
    have hset : mem.set stack (getDigit n b)
        = mem.take stack ++ ch (Nat.digitChar (n.natAbs % b)) :: mem.drop (stack + 1) := by
      rw [getDigit_eq hb hb', List.set_eq_take_append_cons_drop,
        if_pos (Nat.lt_of_succ_le hs)]
    have hlen : (mem.take stack).length = stack := List.length_take_of_le (Nat.le_of_succ_le hs)
    rw [putDigits, hset]
    rw [rendered_eq hb] at h ⊢
    by_cases hm : n.natAbs < b
    · simp only [hne.2 hm, ne_eq, not_true_eq_false, if_false, if_pos hm, Nat.mod_eq_of_lt hm,
        List.length_singleton, Nat.add_sub_cancel, List.append_assoc, List.singleton_append]
    · rw [if_neg hm, List.length_append, List.length_singleton] at h
      have ih := putDigits_run hb hb' stack (n.tdiv b)
        (mem.take stack ++ ch (Nat.digitChar (n.natAbs % b)) :: mem.drop (stack + 1))
        (by rw [List.length_append, hlen]; omega) (by rw [hdiv]; omega)
      rw [hdiv] at ih
      rw [if_neg hm, if_pos (mt hne.1 hm), ih, List.length_append, List.length_singleton,
        Nat.add_sub_add_right, List.take_append_of_le_length (by rw [hlen]; omega),
        List.take_take, Nat.min_eq_left (Nat.sub_le _ _), List.drop_left' hlen]
      simp only [List.append_assoc, List.singleton_append]

theorem rendered_ne_zero (hb : 1 < b) (hb' : b ≤ 16) : ∀ {m : ℕ}, 0 ∉ rendered b m := by
  have hdigit : ∀ {m}, m < 16 → 0 ∉ [ch (Nat.digitChar m)] := by
    intro m hm
    interval_cases m <;> decide
  intro m
  induction m using Nat.strongRecOn with
  | ind m ih =>
    rw [rendered_eq hb]
    split_ifs with hm
    · exact hdigit (by omega)
    · have hd := Nat.mod_lt m (Nat.lt_of_succ_lt hb)
      rw [List.mem_append, not_or]
      exact ⟨ih _ (Nat.div_lt_self (by omega) hb), hdigit (by omega)⟩

theorem cString_append {text rest : List Byte} (h : 0 ∉ text) : cString (text ++ 0 :: rest) = text := by
  rw [cString, List.takeWhile_append_of_pos]
  · simp
  · intro c hc
    simpa using ne_of_mem_of_not_mem hc h

theorem length_newBuffer (env : Env) (size : ℕ) : (newBuffer env size).length = size := by
  rw [newBuffer, List.length_set, List.length_map, List.length_range]

theorem newBuffer_last (env : Env) (k : ℕ) : (newBuffer env (k + 1)).drop k = [0] := by
  have hlen : ((List.range k).map env.junk).length = k := by
    rw [List.length_map, List.length_range]
  rw [newBuffer, Nat.add_sub_cancel, List.range_succ, List.map_append,
    List.set_append_right _ _ hlen.le, hlen, Nat.sub_self, List.drop_left' hlen]
  rfl

/-- The digits in a new buffer of 21 bytes, the last of them the NUL. -/
theorem putDigits_buffer (n : ℤ) (h : n.natAbs < 10 ^ 20) :
    putDigits 10 ((newBuffer env 21).length - 1) n (newBuffer env 21)
      = .ok (20 - (rendered 10 n.natAbs).length,
        (newBuffer env 21).take (20 - (rendered 10 n.natAbs).length) ++ rendered 10 n.natAbs
          ++ [0]) := by
  have hl := length_rendered_le (b := 10) (by norm_num) (by norm_num) h
  have hrun := putDigits_run (b := 10) (by norm_num) (by norm_num) 20 n (newBuffer env 21)
    (by rw [length_newBuffer]; norm_num) hl
  rw [newBuffer_last] at hrun
  rw [length_newBuffer]
  exact hrun

theorem putUnsigned_eq {m : ℕ} (h : m < 10 ^ 20) :
    putUnsigned env m = .ok (.bytes (rendered 10 m)) := by
  have hlen : ((newBuffer env 21).take (20 - (rendered 10 m).length)).length
      = 20 - (rendered 10 m).length :=
    List.length_take_of_le (by rw [length_newBuffer]; omega)
  have hrun := putDigits_buffer env m h
  rw [Int.natAbs_natCast] at hrun
  rw [putUnsigned]
  simp only [hrun, bind, Except.bind, pure, Except.pure]
  rw [List.append_assoc, List.drop_left' hlen, cString_append (rendered_ne_zero (by norm_num)
    (by norm_num))]

theorem putInt_eq (h : n.natAbs < 10 ^ 19) : putInt env n = .ok (.bytes (decimal n)) := by
  have hl := length_rendered_le (b := 10) (by norm_num) (by norm_num) h
  have hz := rendered_ne_zero (b := 10) (by norm_num) (by norm_num) (m := n.natAbs)
  obtain ⟨k, hk⟩ : ∃ k, 20 - (rendered 10 n.natAbs).length = k + 1 :=
    Nat.exists_eq_succ_of_ne_zero (by omega)
  have hlen : ((newBuffer env 21).take (k + 1)).length = k + 1 :=
    List.length_take_of_le (by rw [length_newBuffer]; omega)
  have hrun := putDigits_buffer env n (h.trans (by norm_num))
  rw [hk, List.append_assoc] at hrun
  rw [putInt]
  simp only [hrun, bind, Except.bind, pure, Except.pure]
  split_ifs with hn
  · have hset : ((newBuffer env 21).take (k + 1) ++ (rendered 10 n.natAbs ++ [0])).set k (ch '-')
        = (newBuffer env 21).take k ++ ch '-' :: (rendered 10 n.natAbs ++ [0]) := by
      rw [List.set_eq_take_append_cons_drop, if_pos (by rw [List.length_append]; omega),
        List.take_append_of_le_length (by omega), List.take_take, Nat.min_eq_left (Nat.le_succ k),
        List.drop_left' hlen]
    rw [hset, List.drop_left' (List.length_take_of_le (by rw [length_newBuffer]; omega)),
      ← List.cons_append, cString_append, decimal, if_pos hn]
    · rfl
    · rw [List.mem_cons, not_or]
      exact ⟨by decide, hz⟩
  · rw [List.drop_left' hlen, cString_append hz, decimal, if_neg hn, List.nil_append]

theorem putHexIn_eq {k m : ℕ} (hk : 0 < k) (h : m < 16 ^ k) :
    putHexIn (chars "0x" ++ List.replicate k (ch '0') ++ [0]) m
      = .ok (.bytes (chars "0x" ++ padded k m)) := by
  have hl := length_rendered_le (b := 16) (by norm_num) hk h
  have hz := rendered_ne_zero (b := 16) (by norm_num) (by norm_num) (m := m)
  have hpre : (chars "0x" ++ List.replicate k (ch '0')).length = k + 2 := by
    rw [List.length_append, List.length_replicate, Nat.add_comm]
    rfl
  have hrun := putDigits_run (b := 16) (by norm_num) (by norm_num) (k + 2) m
    (chars "0x" ++ List.replicate k (ch '0') ++ [0]) (by rw [List.length_append]; omega)
    (by rw [Int.natAbs_natCast]; omega)
  rw [Int.natAbs_natCast, List.drop_left' hpre, List.take_append_of_le_length (by omega)] at hrun
  have htake : (chars "0x" ++ List.replicate k (ch '0')).take (k + 2 - (rendered 16 m).length)
      = chars "0x" ++ List.replicate (k - (rendered 16 m).length) (ch '0') := by
    have hi : k + 2 - (rendered 16 m).length
        = (chars "0x").length + (k - (rendered 16 m).length) := by
      rw [show (chars "0x").length = 2 from rfl]
      omega
    rw [hi, List.take_length_add_append, List.take_replicate, Nat.min_eq_left (Nat.sub_le _ _)]
  have htext : 0 ∉ chars "0x" ++ padded k m := by
    rw [padded, List.mem_append, List.mem_append, List.mem_replicate]
    rintro (h0 | ⟨-, h0⟩ | h0)
    · exact absurd h0 (by decide)
    · exact absurd h0 (by decide)
    · exact hz h0
  rw [htake, List.append_assoc (chars "0x") (List.replicate (k - _) _)] at hrun
  change putDigits 16 (k + 2) m _ = .ok (_, chars "0x" ++ padded k m ++ [0]) at hrun
  rw [putHexIn, List.length_append, hpre, List.length_singleton, Nat.add_sub_cancel]
  simp only [hrun, bind, Except.bind, pure, Except.pure, cString_append htext]

/-! ## Directives -/

theorem toInt_natAbs_lt (a : U64) : a.toInt.natAbs < 10 ^ 19 := by
  have h₁ := BitVec.two_mul_toInt_lt (x := a)
  have h₂ := BitVec.le_two_mul_toInt (x := a)
  omega

theorem int_natAbs_lt (a : U64) : (int a).natAbs < 10 ^ 19 := by
  have h₁ := BitVec.two_mul_toInt_lt (x := a.setWidth 32)
  have h₂ := BitVec.le_two_mul_toInt (x := a.setWidth 32)
  rw [int]
  omega

theorem putHex_eq (a : U64) : putHex (unsigned a)
    = .ok (.bytes (chars "0x" ++ padded 8 (a.setWidth 32).toNat)) :=
  putHexIn_eq (k := 8) (by norm_num) (a.setWidth 32).isLt

theorem putUlHex_eq (a : U64) : putUlHex a.toNat
    = .ok (.bytes (chars "0x" ++ padded 16 a.toNat)) :=
  putHexIn_eq (k := 16) (by norm_num) a.isLt

variable {a : U64} {args : List U64} {f l : ℕ} {out : List Event}

theorem next_l {n : ℕ} {cs : List Byte} :
    (ch 'l' :: cs).foldlM (State.next env) ⟨f, l, true, n, args, out⟩
      = cs.foldlM (State.next env) ⟨l + 1, l + 1, true, n + 1, args, out⟩ := rfl

/-- The last letter of a directive takes an argument and writes its text. -/
theorem next_convert {c : Byte} {n : ℕ} {type : VaType} (put : U64 → Except Fault Chunk)
    {text : List Byte} (hc : c ≠ ch '%')
    (hd : State.directive env ⟨f, l, true, n, a :: args, out⟩ c = (do
      let s ← State.convert ⟨l + 1, l, true, n, a :: args, out⟩ type put
      return s.reset))
    (hp : put a = .ok (.bytes text)) :
    [c].foldlM (State.next env) ⟨f, l, true, n, a :: args, out⟩
      = .ok ⟨l + 1, l + 1, false, 0, args, out ++ [.vaArg type, .write (.bytes text)]⟩ := by
  rw [List.foldlM_cons, State.next, State.step, if_neg hc, if_neg (by simp), hd, State.convert]
  simp only [hp]
  rfl

theorem directive_run (d : Directive) :
    d.bytes.foldlM (State.next env) ⟨f, l, true, 0, a :: args, out⟩
      = .ok ⟨l + d.bytes.length, l + d.bytes.length, false, 0, args,
        out ++ [.vaArg d.fetched, .write (.bytes (d.render env a))]⟩ := by
  have h20 : ∀ b : U64, b.toNat < 10 ^ 20 := fun b => b.isLt.trans (by norm_num)
  have h32 : (a.setWidth 32).toNat < 10 ^ 20 := (a.setWidth 32).isLt.trans (by norm_num)
  cases d with
  | d longs =>
    fin_cases longs
    · exact next_convert env (fun arg => putInt env (int arg)) (by decide) rfl
        (putInt_eq env (int_natAbs_lt a))
    · exact (next_l env).trans (next_convert env (fun arg => putInt env arg.toInt) (by decide) rfl
        (putInt_eq env (toInt_natAbs_lt a)))
    · exact (next_l env).trans ((next_l env).trans (next_convert env
        (fun arg => putInt env arg.toInt) (by decide) rfl (putInt_eq env (toInt_natAbs_lt a))))
  | u longs =>
    fin_cases longs
    · exact next_convert env (fun arg => putUnsigned env (unsigned arg)) (by decide) rfl
        (putUnsigned_eq env h32)
    · exact (next_l env).trans (next_convert env (fun arg => putUnsigned env arg.toNat)
        (by decide) rfl (putUnsigned_eq env (h20 a)))
    · exact (next_l env).trans ((next_l env).trans (next_convert env
        (fun arg => putUnsigned env arg.toNat) (by decide) rfl (putUnsigned_eq env (h20 a))))
  | s => exact next_convert env (fun arg => .ok (puts env arg)) (by decide) rfl rfl
  | c => exact next_convert env (fun arg => .ok (putc (arg.setWidth 8))) (by decide) rfl rfl
  | x => exact next_convert env (fun arg => putHex (unsigned arg)) (by decide) rfl (putHex_eq a)
  | p => exact next_convert env (fun arg => putUlHex arg.toNat) (by decide) rfl (putUlHex_eq a)

/-! ## Formats -/

/-- The part of the format that is still to be written. -/
def State.pending (format : List Byte) (s : State) : List Byte :=
  (format.drop s.first).take (s.last - s.first)

/-- Between pieces: the format is scanned up to `pre`, and what is written, with the pending part
of the format, is `text`. -/
structure Scanned (format pre text : List Byte) (args : List U64) (s : State) : Prop where
  last : s.last = pre.length
  mode : s.formatMode = false
  long : s.nLong = 0
  first : s.first ≤ s.last
  args : s.args = args
  text : s.out.flatMap (Event.text format) ++ s.pending format = text

section Pieces

variable {format pre rest text : List Byte} {s : State}

theorem pending_empty (hf : s.first = s.last) : s.pending format = [] := by
  rw [State.pending, hf, Nat.sub_self, List.take_zero]

/-- An ordinary character, or the second `%`, is pending after it was scanned. -/
theorem pending_succ (pre rest : List Byte) {c : Byte} (hf : f ≤ pre.length) :
    ((pre ++ c :: rest).drop f).take (pre.length + 1 - f) =
      ((pre ++ c :: rest).drop f).take (pre.length - f) ++ [c] := by
  have hc : ((pre ++ c :: rest).drop f)[pre.length - f]? = some c := by
    rw [List.getElem?_drop, Nat.add_sub_cancel' hf, List.getElem?_append_right le_rfl, Nat.sub_self]
    rfl
  rw [Nat.succ_sub hf, List.take_add_one, hc]
  rfl

theorem Scanned.char {c : Byte} (h : Scanned (pre ++ c :: rest) pre text args s)
    (hc : c ≠ ch '%') : ∃ s', State.next env s c = .ok s'
      ∧ Scanned (pre ++ c :: rest) (pre ++ [c]) (text ++ [c]) args s' := by
  refine ⟨{ s with last := s.last + 1 }, ?_, ?_⟩
  · rw [State.next, State.step, if_neg hc, if_pos (by simp [h.mode])]
    rfl
  · refine ⟨by simp [h.last], h.mode, h.long, Nat.le_succ_of_le h.first, h.args, ?_⟩
    rw [← h.text, List.append_assoc]
    congr 1
    simp only [State.pending, h.last]
    exact pending_succ pre rest (h.last ▸ h.first)

theorem Scanned.flush (h : Scanned format pre text args s) :
    State.next env s (ch '%') = .ok ⟨s.first, s.last + 1, true, 0, args, s.flush.out⟩ := by
  obtain ⟨first, last, mode, long, args', out⟩ := s
  obtain rfl := h.mode
  obtain rfl := h.long
  obtain rfl := h.args
  rfl

theorem Scanned.flush_text (h : Scanned format pre text args s) :
    s.flush.out.flatMap (Event.text format) = text := by
  rw [State.flush, List.flatMap_append, ← h.text]
  simp [Event.text, State.pending]

theorem Scanned.percent (h : Scanned (pre ++ ch '%' :: ch '%' :: rest) pre text args s) :
    ∃ s', [ch '%', ch '%'].foldlM (State.next env) s = .ok s'
      ∧ Scanned (pre ++ ch '%' :: ch '%' :: rest) (pre ++ [ch '%', ch '%']) (text ++ [ch '%']) args
        s' := by
  refine ⟨⟨s.last + 1, s.last + 1 + 1, false, 0, args, s.flush.out⟩, ?_, ?_⟩
  · rw [List.foldlM_cons, h.flush env]
    rfl
  · refine ⟨by simp [h.last], rfl, rfl, Nat.le_succ _, rfl, ?_⟩
    have hp := pending_succ (pre ++ [ch '%']) rest (c := ch '%')
      (f := (pre ++ [ch '%']).length) le_rfl
    rw [Nat.sub_self, List.take_zero, List.nil_append, List.append_assoc, List.singleton_append,
      List.length_append, List.length_singleton] at hp
    rw [h.flush_text, State.pending, h.last, hp]

theorem Scanned.directive {d : Directive} (h : Scanned format pre text (a :: args) s) :
    ∃ s', (ch '%' :: d.bytes).foldlM (State.next env) s = .ok s'
      ∧ Scanned format (pre ++ ch '%' :: d.bytes) (text ++ d.render env a) args s' := by
  refine ⟨_, (congrArg (· >>= _) (h.flush env)).trans (directive_run env d), ?_, rfl, rfl, le_rfl,
    rfl, ?_⟩
  · simp [h.last, Nat.add_assoc, Nat.add_comm 1]
  · rw [pending_empty rfl, List.append_nil, List.flatMap_append, h.flush_text]
    simp [Event.text]

/-- A piece writes its text, or leaves it pending. -/
theorem Scanned.piece {p : Piece} {args' : List U64}
    (h : Scanned (pre ++ (p.bytes ++ rest)) pre text (args' ++ args) s) (ho : p.Ordinary)
    (hn : args'.length = conversions [p]) : ∃ s', p.bytes.foldlM (State.next env) s = .ok s'
      ∧ Scanned (pre ++ (p.bytes ++ rest)) (pre ++ p.bytes) (text ++ reference env [p] args') args
        s' := by
  cases p with
  | char c =>
    obtain rfl := List.length_eq_zero_iff.1 hn
    obtain ⟨s', hs, h'⟩ := h.char env ho.1
    exact ⟨s', (congrArg (· >>= pure) hs), h'⟩
  | percent =>
    obtain rfl := List.length_eq_zero_iff.1 hn
    exact h.percent env
  | conv d =>
    obtain ⟨a, rfl⟩ := List.length_eq_one_iff.1 hn
    rw [reference, reference, List.append_nil]
    exact h.directive env

theorem reference_cons {p : Piece} {pieces : List Piece} {args' : List U64}
    (hn : args'.length = conversions [p]) : reference env (p :: pieces) (args' ++ args)
      = reference env [p] args' ++ reference env pieces args := by
  cases p with
  | char c =>
    obtain rfl := List.length_eq_zero_iff.1 hn
    rfl
  | percent =>
    obtain rfl := List.length_eq_zero_iff.1 hn
    rfl
  | conv d =>
    obtain ⟨a, rfl⟩ := List.length_eq_one_iff.1 hn
    simp [reference]

/-- The pieces of a format write their text, in order. -/
theorem pieces_run {format : List Byte} : ∀ {pieces : List Piece} {pre text : List Byte}
    {args : List U64} {s : State}, format = pre ++ pieces.flatMap Piece.bytes →
    Scanned format pre text args s → (∀ p ∈ pieces, p.Ordinary) →
    conversions pieces ≤ args.length →
    ∃ s' args', (pieces.flatMap Piece.bytes).foldlM (State.next env) s = .ok s'
      ∧ Scanned format format (text ++ reference env pieces args) args' s'
  | [], pre, text, args, s, hf, h, _, _ => by
    rw [List.flatMap_nil, List.append_nil] at hf
    subst hf
    exact ⟨s, args, rfl, by simpa [reference] using h⟩
  | p :: pieces, pre, text, args, s, hf, h, ho, hn => by
    obtain ⟨hp, ho⟩ := List.forall_mem_cons.1 ho
    have hc : conversions (p :: pieces) = conversions [p] + conversions pieces := by
      rw [← List.singleton_append, conversions, List.countP_append]
      rfl
    obtain ⟨args', rest, rfl, hl⟩ : ∃ args' rest, args = args' ++ rest
        ∧ args'.length = conversions [p] :=
      ⟨_, _, (List.take_append_drop _ args).symm, List.length_take_of_le (by omega)⟩
    rw [List.flatMap_cons] at hf ⊢
    subst hf
    obtain ⟨s₁, hs, h₁⟩ := h.piece env hp hl
    obtain ⟨s', args'', hs', h'⟩ := pieces_run (List.append_assoc _ _ _).symm h₁ ho (by
      rw [List.length_append] at hn
      omega)
    refine ⟨s', args'', ?_, ?_⟩
    · rw [List.foldlM_append, hs]
      exact hs'
    · rw [reference_cons env hl, ← List.append_assoc text]
      exact h'

end Pieces

/-- `generic_printf` writes the text of its format and arguments, whatever the format's pieces, and
never stores a digit outside its buffers. -/
theorem generic_printf_writes {pieces : List Piece} {args : List U64}
    (ho : ∀ p ∈ pieces, p.Ordinary) (hn : conversions pieces ≤ args.length) :
    ∃ events, genericPrintf env (pieces.flatMap Piece.bytes) args = .ok events
      ∧ events.flatMap (Event.text (pieces.flatMap Piece.bytes)) = reference env pieces args := by
  have h0 : Scanned (pieces.flatMap Piece.bytes) [] [] args ⟨0, 0, false, 0, args, []⟩ :=
    ⟨rfl, rfl, rfl, le_rfl, rfl, by simp [State.pending]⟩
  obtain ⟨s, args', hs, h⟩ := pieces_run env (List.nil_append _).symm h0 ho hn
  refine ⟨s.flush.out, ?_, h.flush_text⟩
  rw [genericPrintf, hs]
  rfl

theorem generic_printf_writes_small : ∃ events,
    genericPrintf emptyStrings (chars "a%%%d%lld%s%x") smallArgs = .ok events
      ∧ events.flatMap (Event.text (chars "a%%%d%lld%s%x"))
        = chars "a%-2147483648-9223372036854775808NULL0x0000beef" := by
  have ho : ∀ p ∈ smallPieces, p.Ordinary := by
    simp [smallPieces, Piece.Ordinary]
    decide
  have hn : conversions smallPieces ≤ smallArgs.length := by decide
  exact generic_printf_writes emptyStrings ho hn

end Printf

end SctOs
