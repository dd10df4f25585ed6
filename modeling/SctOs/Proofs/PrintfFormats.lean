import SctOs.Proofs.Printf
import SctOs.Proofs.Related

/-!
# Formats

A `%` that starts a directive writes the text in front, and only the next character moves the start
of what is pending. So text is written twice when the format ends there, and not in any other format
(`successive_iff`). The arguments are fetched as `printf` does, except those of `%lx` and `%llx`
(`likePrintf_iff`).
-/

namespace SctOs

namespace Printf

variable (env : Env)

/-! ## Directives -/

section directives

variable {f l n : ℕ} {mode : Bool} {args : List U64} {out : List Event} {c : Byte}

/-- The state after a letter that took an argument. -/
def converted (l : ℕ) (type : VaType) (text : U64 → List Byte) (out : List Event) :
    List U64 → Except Fault State
  | [] => .error .noArgument
  | a :: args => .ok ⟨l + 1, l, false, 0, args, out ++ [.vaArg type, .write (.bytes (text a))]⟩

theorem convert_eq {type : VaType} {put : U64 → Except Fault Chunk} {text : U64 → List Byte}
    (hput : ∀ a, put a = .ok (.bytes (text a))) :
    (do
      let s ← State.convert ⟨l + 1, l, mode, n, args, out⟩ type put
      return s.reset) = converted l type text out args := by
  cases args with
  | nil => rfl
  | cons a args =>
    rw [State.convert]
    simp only [hput]
    rfl

theorem directive_letter (hc : c ∈ conversionLetters) : ∃ type text,
    State.directive env ⟨f, l, mode, n, args, out⟩ c = converted l type text out args := by
  have hcases : c = ch 'd' ∨ c = ch 'u' ∨ c = ch 's' ∨ c = ch 'c' ∨ c = ch 'x' ∨ c = ch 'p' := by
    simpa [conversionLetters, chars] using hc
  rcases hcases with rfl | rfl | rfl | rfl | rfl | rfl
  · rcases n with _ | _ | n
    · exact ⟨.int, _, convert_eq fun a => putInt_eq env (int_natAbs_lt a)⟩
    · exact ⟨.long, _, convert_eq fun a => putInt_eq env (toInt_natAbs_lt a)⟩
    · exact ⟨.longLong, _, convert_eq fun a => putInt_eq env (toInt_natAbs_lt a)⟩
  · rcases n with _ | _ | n
    · exact ⟨.unsigned, _, convert_eq fun a =>
        putUnsigned_eq env ((a.setWidth 32).isLt.trans (by norm_num))⟩
    · exact ⟨.unsignedLong, _, convert_eq fun a =>
        putUnsigned_eq env (a.isLt.trans (by norm_num))⟩
    · exact ⟨.unsignedLongLong, _, convert_eq fun a =>
        putUnsigned_eq env (a.isLt.trans (by norm_num))⟩
  · exact ⟨.charPtr, _, convert_eq fun a => rfl⟩
  · exact ⟨.int, _, convert_eq fun a => rfl⟩
  · exact ⟨.unsigned, _, convert_eq putHex_eq⟩
  · exact ⟨.sizeT, _, convert_eq putUlHex_eq⟩

theorem directive_other (hc : c ∉ conversionLetters) : ∃ n',
    State.directive env ⟨f, l, mode, n, args, out⟩ c = .ok ⟨l + 1, l, mode, n', args, out⟩ := by
  have hcases : c ≠ ch 'd' ∧ c ≠ ch 'u' ∧ c ≠ ch 's' ∧ c ≠ ch 'c' ∧ c ≠ ch 'x' ∧ c ≠ ch 'p' := by
    simpa [conversionLetters, chars] using hc
  obtain ⟨hd, hu, hs, hc, hx, hp⟩ := hcases
  unfold State.directive
  by_cases hl : c = ch 'l'
  · exact ⟨n + 1, by rw [if_pos hl]; rfl⟩
  · exact ⟨n, by simp only [hl, hd, hu, hs, hc, hx, hp, if_false]; rfl⟩

end directives

/-! ## Ranges -/

/-- The ranges that were written are successive, and end before `limit`. -/
structure Upto (limit : ℕ) (out : List Event) : Prop where
  successive : (ranges out).Pairwise fun a b => a.1 + a.2 ≤ b.1
  le : ∀ a ∈ ranges out, a.1 + a.2 ≤ limit

section upto

variable {k m : ℕ} {out : List Event}

theorem Upto.mono (h : Upto k out) (hk : k ≤ m) : Upto m out :=
  ⟨h.successive, fun a ha => (h.le a ha).trans hk⟩

theorem Upto.converted (h : Upto k out) (type : VaType) (text : List Byte) :
    Upto k (out ++ [.vaArg type, .write (.bytes text)]) := by
  have : ranges (out ++ [.vaArg type, .write (.bytes text)]) = ranges out := by
    simp [ranges, Event.range?]
  exact ⟨this ▸ h.successive, this ▸ h.le⟩

theorem ranges_flush {s : State} :
    ranges s.flush.out = ranges s.out ++ [(s.first, s.last - s.first)] := by
  simp [ranges, State.flush, Event.range?]

theorem Upto.flush {s : State} (h : Upto s.first s.out) (hs : s.first ≤ s.last) :
    Upto s.last s.flush.out := by
  constructor
  · rw [ranges_flush, List.pairwise_append]
    refine ⟨h.successive, List.pairwise_singleton _ _, fun a ha b hb => ?_⟩
    rw [List.mem_singleton.1 hb]
    exact h.le a ha
  · rw [ranges_flush]
    intro a ha
    rcases List.mem_append.1 ha with ha | ha
    · exact (h.le a ha).trans hs
    · rw [List.mem_singleton.1 ha]
      omega

end upto

/-- The scanner at a place. -/
inductive At : Place → State → Prop
  | text {pending : Bool} {s : State} : s.formatMode = false → s.first ≤ s.last →
    (pending = true ↔ s.first < s.last) → Upto s.first s.out → At (.text pending) s
  | percent {pending : Bool} {size : ℕ} {s : State} : s.formatMode = true →
    s.first + size + 1 = s.last → (pending = true ↔ 0 < size) →
    (s.first, size) ∈ ranges s.out → Upto (s.first + size) s.out → At (.percent pending) s
  | directive {s : State} : s.formatMode = true → s.first = s.last → Upto s.first s.out →
    At .directive s

section steps

variable {f l n : ℕ} {args : List U64} {out : List Event} {c : Byte} {s s' : State}

theorem next_text (hc : c ≠ ch '%') : State.next env ⟨f, l, false, n, args, out⟩ c =
    .ok ⟨f, l + 1, false, n, args, out⟩ := by
  rw [State.next, State.step, if_neg hc, if_pos (by simp)]
  rfl

theorem next_directive (hc : c ≠ ch '%') : State.next env ⟨f, l, true, n, args, out⟩ c = do
    let s ← State.directive env ⟨f, l, true, n, args, out⟩ c
    return { s with last := s.last + 1 } := by
  rw [State.next, State.step, if_neg hc, if_neg (by simp)]

theorem next_letter (hc : c ∈ conversionLetters) : ∃ type text,
    State.next env ⟨f, l, true, n, args, out⟩ c =
      (converted l type text out args).map fun s => { s with last := s.last + 1 } := by
  have hne : c ≠ ch '%' := by
    rintro rfl
    revert hc
    decide
  obtain ⟨type, text, hd⟩ : ∃ type text, State.directive env ⟨f, l, true, n, args, out⟩ c =
    converted l type text out args := directive_letter env hc
  refine ⟨type, text, ?_⟩
  rw [next_directive env hne, hd]
  rfl

theorem next_other (hc : c ∉ conversionLetters) (hne : c ≠ ch '%') : ∃ n',
    State.next env ⟨f, l, true, n, args, out⟩ c = .ok ⟨l + 1, l + 1, true, n', args, out⟩ := by
  obtain ⟨n', hd⟩ : ∃ n', State.directive env ⟨f, l, true, n, args, out⟩ c =
    .ok ⟨l + 1, l, true, n', args, out⟩ := directive_other env hc
  refine ⟨n', ?_⟩
  rw [next_directive env hne, hd]
  rfl

theorem text_at {pending : Bool} (hle : f ≤ l) (hpending : pending = true ↔ f < l)
    (hupto : Upto f out) (hs : State.next env ⟨f, l, false, n, args, out⟩ c = .ok s') :
    At ((Place.text pending).next c) s' ∧ s'.last = l + 1 := by
  rw [Place.next]
  split_ifs with hc
  · subst hc
    cases hs
    have hsize : f + (l - f) = l := Nat.add_sub_cancel' hle
    have hflush := ranges_flush (s := ⟨f, l, false, n, args, out⟩)
    refine ⟨.percent rfl (congrArg (· + 1) hsize) (hpending.trans (by omega)) ?_ ?_, rfl⟩
    · exact hflush ▸ List.mem_append_right _ List.mem_cons_self
    · exact hsize.symm ▸ hupto.flush (s := ⟨f, l, false, n, args, out⟩) hle
  · rw [next_text env hc] at hs
    cases hs
    exact ⟨.text rfl (Nat.le_succ_of_le hle) (by simp; omega) hupto, rfl⟩

theorem directive_at {k : ℕ} (hk : k ≤ l) (hupto : Upto k out)
    (hs : State.next env ⟨f, l, true, n, args, out⟩ c = .ok s') :
    At (Place.directive.next c) s' ∧ s'.last = l + 1 := by
  rw [Place.next]
  split_ifs with hc hletter
  · subst hc
    cases hs
    exact ⟨.text rfl (Nat.le_succ l) (by simp) (hupto.mono hk), rfl⟩
  · obtain ⟨type, text, hrun⟩ := next_letter env hletter
    rw [hrun] at hs
    cases args with
    | nil => cases hs
    | cons a args =>
      cases hs
      exact ⟨.text rfl le_rfl (by simp) ((hupto.mono (Nat.le_succ_of_le hk)).converted _ _), rfl⟩
  · obtain ⟨n', hrun⟩ := next_other env hletter hc
    rw [hrun] at hs
    cases hs
    exact ⟨.directive rfl rfl (hupto.mono (Nat.le_succ_of_le hk)), rfl⟩

theorem next_at {place : Place} (h : At place s) (hs : State.next env s c = .ok s') :
    At (place.next c) s' ∧ s'.last = s.last + 1 := by
  obtain ⟨f, l, mode, n, args, out⟩ := s
  cases h with
  | text hmode hle hpending hupto =>
    obtain rfl : mode = false := hmode
    exact text_at env hle hpending hupto hs
  | percent hmode hsize _ _ hupto =>
    obtain rfl : mode = true := hmode
    exact directive_at env (Nat.le_of_succ_le hsize.le) hupto hs
  | directive hmode heq hupto =>
    obtain rfl : mode = true := hmode
    exact directive_at env heq.le hupto hs

theorem run_at : ∀ {format : List Byte} {place : Place} {s s' : State}, At place s →
    format.foldlM (State.next env) s = .ok s' →
    At (format.foldl Place.next place) s' ∧ s'.last = s.last + format.length
  | [], place, s, s', h, hs => by
    cases hs
    exact ⟨h, rfl⟩
  | c :: format, place, s, s', h, hs => by
    rw [List.foldlM_cons] at hs
    rcases hc : State.next env s c with e | s₁ <;> rw [hc] at hs
    · cases hs
    · obtain ⟨h₁, hlast₁⟩ := next_at env h hc
      obtain ⟨h', hlast⟩ := run_at h₁ hs
      refine ⟨h', ?_⟩
      rw [hlast, hlast₁, List.length_cons]
      omega

end steps

/-- With an argument left, a character has an outcome. -/
theorem next_returns (c : Byte) : ∀ {s : State}, s.args ≠ [] →
    ∃ s', State.next env s c = .ok s' ∧ s.args.length ≤ s'.args.length + 1
  | ⟨f, l, false, n, args, out⟩, _ => by
    by_cases hc : c = ch '%'
    · subst hc
      exact ⟨_, rfl, Nat.le_succ _⟩
    · exact ⟨_, next_text env hc, Nat.le_succ _⟩
  | ⟨f, l, true, n, args, out⟩, hargs => by
    by_cases hc : c = ch '%'
    · subst hc
      exact ⟨_, rfl, Nat.le_succ _⟩
    by_cases hletter : c ∈ conversionLetters
    · obtain ⟨a, args, rfl⟩ := List.exists_cons_of_ne_nil hargs
      obtain ⟨type, text, hrun⟩ := next_letter env hletter
      exact ⟨_, hrun, le_rfl⟩
    · obtain ⟨n', hrun⟩ := next_other env hletter hc
      exact ⟨_, hrun, Nat.le_succ _⟩

theorem run_returns : ∀ {format : List Byte} {s : State}, format.length ≤ s.args.length →
    ∃ s', format.foldlM (State.next env) s = .ok s'
  | [], s, _ => ⟨s, rfl⟩
  | c :: format, s, h => by
    rw [List.length_cons] at h
    have hne : s.args ≠ [] := List.ne_nil_of_length_pos (by omega)
    obtain ⟨s₁, hc, hlen⟩ := next_returns env c hne
    have hle : format.length ≤ s₁.args.length := by omega
    obtain ⟨s', hs⟩ := run_returns hle
    exact ⟨s', by rw [List.foldlM_cons, hc]; exact hs⟩

theorem flush_successive_iff {place : Place} {s : State} {format : List Byte} (h : At place s)
    (hlast : s.last = format.length) :
    Successive format s.flush.out ↔ place ≠ .percent true := by
  have hlimit : ∀ {k : ℕ}, Upto k s.out → s.first ≤ s.last → k ≤ s.first →
      Successive format s.flush.out := by
    intro k hupto hle hk
    have hflush := (hupto.mono hk).flush hle
    exact ⟨hflush.successive, hlast ▸ hflush.le⟩
  cases h with
  | text hmode hle _ hupto => simpa using hlimit hupto hle le_rfl
  | @percent pending size _ hmode hsize hpending hmem hupto =>
    constructor
    · rintro ⟨hsucc, -⟩ heq
      obtain rfl : pending = true := Place.percent.inj heq
      rw [ranges_flush, List.pairwise_append] at hsucc
      have hle : s.first + size ≤ s.first := hsucc.2.2 _ hmem _ List.mem_cons_self
      have hpos := hpending.1 rfl
      omega
    · intro hne
      have hzero : ¬0 < size := fun hpos => hne (congrArg _ (hpending.2 hpos))
      exact hlimit hupto (by omega) (by omega)
  | directive hmode heq hupto => simpa using hlimit hupto heq.le le_rfl

/-- With enough arguments each format is written. Text is written twice when the format ends in a `%`
behind it. -/
theorem successive_iff (format : List Byte) (args : List U64) :
    (format.length ≤ args.length → ∃ events, genericPrintf env format args = .ok events) ∧
      ∀ events, genericPrintf env format args = .ok events →
        (Successive format events ↔ place format ≠ .percent true) := by
  constructor
  · intro hlen
    obtain ⟨s, hs⟩ := run_returns env (s := ⟨0, 0, false, 0, args, []⟩) hlen
    exact ⟨s.flush.out, by rw [genericPrintf, hs]; rfl⟩
  intro events h
  rw [genericPrintf] at h
  rcases hs : format.foldlM (State.next env) ⟨0, 0, false, 0, args, []⟩ with e | s <;> rw [hs] at h
  · cases h
  · cases h
    have h0 : At (.text false) ⟨0, 0, false, 0, args, []⟩ :=
      .text rfl le_rfl (by simp) ⟨List.Pairwise.nil, fun a ha => absurd ha List.not_mem_nil⟩
    obtain ⟨hat, hlast⟩ := run_at env h0 hs
    exact flush_successive_iff hat (hlast.trans (Nat.zero_add _))

theorem successive_small : Successive (chars "a%d%") [.write (.format 0 1), .vaArg .int,
    .write (.bytes (chars "7")), .write (.format 3 0), .write (.format 3 1)] := by
  have hrun : genericPrintf emptyStrings (chars "a%d%") [7] = .ok [.write (.format 0 1),
    .vaArg .int, .write (.bytes (chars "7")), .write (.format 3 0), .write (.format 3 1)] := by rfl
  exact ((successive_iff emptyStrings _ _).2 _ hrun).2 (by decide)

/-- `abc` is written twice. -/
theorem successive_false : ∃ events, genericPrintf emptyStrings (chars "abc%") [] = .ok events ∧
    ¬Successive (chars "abc%") events := by
  refine ⟨[.write (.format 0 3), .write (.format 0 4)], rfl, fun h => ?_⟩
  have := h.1
  simp [ranges, Event.range?] at this

/-! ## Directives of `printf` -/

/-- What `generic_printf` makes of a directive. -/
def PrintfDirective.taken : PrintfDirective → Directive
  | .d longs => .d longs
  | .u longs => .u longs
  | .x _ => .x
  | .s => .s
  | .c => .c
  | .p => .p

section pieces

variable {f l : ℕ} {a : U64} {args : List U64} {out : List Event}

theorem taken_run (d : PrintfDirective) :
    d.bytes.foldlM (State.next env) ⟨f, l, true, 0, a :: args, out⟩ =
      .ok ⟨l + d.bytes.length, l + d.bytes.length, false, 0, args,
        out ++ [.vaArg d.taken.fetched, .write (.bytes (d.taken.render env a))]⟩ := by
  cases d with
  | x longs =>
    -- The letter does not look at the modifiers.
    fin_cases longs
    · exact directive_run env .x
    · exact (next_l env).trans (next_convert env (fun arg => putHex (unsigned arg)) (by decide) rfl
        (putHex_eq a))
    · exact (next_l env).trans ((next_l env).trans (next_convert env
        (fun arg => putHex (unsigned arg)) (by decide) rfl (putHex_eq a)))
  | d longs => exact directive_run env (.d longs)
  | u longs => exact directive_run env (.u longs)
  | s => exact directive_run env .s
  | c => exact directive_run env .c
  | p => exact directive_run env .p

/-- The types and the texts are those of the directives, in order. -/
structure Takes (ds : List PrintfDirective) (args : List U64) (out out' : List Event) : Prop where
  types : out'.filterMap Event.type? =
    out.filterMap Event.type? ++ ds.map fun d => d.taken.fetched
  texts : out'.filterMap Event.text? =
    out.filterMap Event.text? ++ List.zipWith (fun d a => d.taken.render env a) ds args

theorem Takes.write {ds : List PrintfDirective} {out' : List Event}
    (h : Takes env ds args (out ++ [.write (.format f l)]) out') : Takes env ds args out out' := by
  constructor
  · rw [h.types, List.filterMap_append]
    exact congrArg (· ++ _) (List.append_nil _)
  · rw [h.texts, List.filterMap_append]
    exact congrArg (· ++ _) (List.append_nil _)

theorem Takes.conv {ds : List PrintfDirective} {d : PrintfDirective} {out' : List Event}
    (h : Takes env ds args (out ++ [.vaArg d.taken.fetched,
      .write (.bytes (d.taken.render env a))]) out') : Takes env (d :: ds) (a :: args) out out' := by
  constructor
  · rw [h.types, List.filterMap_append, List.append_assoc]
    rfl
  · rw [h.texts, List.filterMap_append, List.append_assoc]
    rfl

theorem Takes.flush {ds : List PrintfDirective} {s : State} (h : Takes env ds args out s.out) :
    Takes env ds args out s.flush.out := by
  constructor
  · rw [← h.types, State.flush, List.filterMap_append]
    exact List.append_nil _
  · rw [← h.texts, State.flush, List.filterMap_append]
    exact List.append_nil _

theorem pieces_taken : ∀ {pieces : List PrintfPiece} {f l : ℕ} {args : List U64}
    {out : List Event}, (∀ p ∈ pieces, p.Ordinary) → (conversionsOf pieces).length ≤ args.length →
    ∃ s, (pieces.flatMap PrintfPiece.bytes).foldlM (State.next env) ⟨f, l, false, 0, args, out⟩ =
      .ok s ∧ Takes env (conversionsOf pieces) args out s.out
  | [], f, l, args, out, _, _ => ⟨_, rfl, by simp [conversionsOf], by simp [conversionsOf]⟩
  | p :: pieces, f, l, args, out, ho, hn => by
    obtain ⟨hp, hpieces⟩ := List.forall_mem_cons.1 ho
    have ih := @pieces_taken pieces
    rw [List.flatMap_cons, List.foldlM_append]
    cases p with
    | char c =>
      obtain ⟨s, hs, htakes⟩ := @ih f (l + 1) args out hpieces hn
      refine ⟨s, ?_, htakes⟩
      rw [PrintfPiece.bytes, List.foldlM_cons, next_text env hp.1]
      exact hs
    | percent =>
      obtain ⟨s, hs, htakes⟩ := @ih (l + 1) (l + 2) args
        (out ++ [.write (.format f (l - f))]) hpieces hn
      exact ⟨s, hs, htakes.write⟩
    | conv d =>
      have hlen : (conversionsOf (.conv d :: pieces)).length =
        (conversionsOf pieces).length + 1 := rfl
      obtain ⟨a, args, rfl⟩ := List.exists_cons_of_length_pos
        (show 0 < args.length by omega)
      rw [hlen, List.length_cons] at hn
      have hd := @taken_run env f (l + 1) a args (out ++ [.write (.format f (l - f))]) d
      obtain ⟨s, hs, htakes⟩ := @ih (l + 1 + d.bytes.length) (l + 1 + d.bytes.length) args
        (out ++ [.write (.format f (l - f))] ++
          [.vaArg d.taken.fetched, .write (.bytes (d.taken.render env a))])
        hpieces (Nat.le_of_succ_le_succ hn)
      exact ⟨s, (congrArg (· >>= _) hd).trans hs, htakes.conv.write⟩

end pieces

theorem taken_type {d : PrintfDirective} :
    d.taken.fetched = d.type ↔ ∀ longs, d = .x longs → longs = 0 := by
  cases d with
  | x longs => fin_cases longs <;> simp [PrintfDirective.taken, PrintfDirective.type,
      Directive.fetched]
  | d longs => fin_cases longs <;> simp [PrintfDirective.taken, PrintfDirective.type,
      Directive.fetched]
  | u longs => fin_cases longs <;> simp [PrintfDirective.taken, PrintfDirective.type,
      Directive.fetched]
  | s => simp [PrintfDirective.taken, PrintfDirective.type, Directive.fetched]
  | c => simp [PrintfDirective.taken, PrintfDirective.type, Directive.fetched]
  | p => simp [PrintfDirective.taken, PrintfDirective.type, Directive.fetched]

theorem taken_full {d : PrintfDirective} (a : U64) (h : ∀ longs, d = .x longs → longs = 0) :
    d.Full a (d.taken.render env a) := by
  cases d with
  | x longs =>
    obtain rfl := h longs rfl
    exact ⟨8, rfl⟩
  | d longs => rfl
  | u longs => rfl
  | s => trivial
  | c => trivial
  | p => trivial

/-- The modifiers of `x` are not looked at. -/
theorem likePrintf_iff {pieces : List PrintfPiece} {args : List U64}
    (ho : ∀ p ∈ pieces, p.Ordinary) (hn : (conversionsOf pieces).length ≤ args.length) :
    ∃ events, genericPrintf env (pieces.flatMap PrintfPiece.bytes) args = .ok events ∧
      (LikePrintf pieces args events ↔ ∀ longs, .x longs ∈ conversionsOf pieces → longs = 0) := by
  obtain ⟨s, hs, htakes⟩ := @pieces_taken env pieces 0 0 args [] ho hn
  obtain ⟨htypes, htexts⟩ := htakes.flush
  refine ⟨s.flush.out, by rw [genericPrintf, hs]; rfl, ?_⟩
  have hall : (∀ longs, .x longs ∈ conversionsOf pieces → longs = 0) ↔
      ∀ d ∈ conversionsOf pieces, d.taken.fetched = d.type := by
    simp only [taken_type]
    exact ⟨fun h d hd longs heq => h longs (heq ▸ hd), fun h longs hx => h _ hx longs rfl⟩
  unfold LikePrintf
  rw [htypes, htexts, List.filterMap_nil, List.filterMap_nil, List.nil_append, List.nil_append]
  constructor
  · rintro ⟨heq, -⟩
    exact hall.2 (List.map_inj_left.1 heq)
  · exact fun h => ⟨List.map_inj_left.2 (hall.1 h),
      List.Forall₂.zip_zipWith fun d hd a => taken_full env a fun longs heq => h longs (heq ▸ hd)⟩

/-- `"%d%u%x"`, the first argument being `-1`. -/
theorem likePrintf_small : ∃ events,
    genericPrintf emptyStrings (chars "%d%u%x") [0xffffffff, 3, 0xffffffff0000beef] = .ok events ∧
      LikePrintf [.conv (.d 0), .conv (.u 0), .conv (.x 0)] [0xffffffff, 3, 0xffffffff0000beef]
        events := by
  have ho : ∀ p ∈ [PrintfPiece.conv (.d 0), .conv (.u 0), .conv (.x 0)], p.Ordinary := by
    simp [PrintfPiece.Ordinary]
  obtain ⟨events, hrun, hiff⟩ :=
    @likePrintf_iff emptyStrings _ [0xffffffff, 3, 0xffffffff0000beef] ho (by decide)
  exact ⟨events, hrun, hiff.2 (by simp [conversionsOf])⟩

/-- `"%lx"` writes the low half of its argument. -/
theorem likePrintf_false : ∃ events,
    genericPrintf emptyStrings (chars "%lx") [0x100000000] = .ok events ∧
      ¬LikePrintf [.conv (.x 1)] [0x100000000] events := by
  refine ⟨[.write (.format 0 0), .vaArg .unsigned, .write (.bytes (chars "0x00000000")),
    .write (.format 3 0)], rfl, fun h => absurd h.1 (by decide)⟩

end Printf

end SctOs
