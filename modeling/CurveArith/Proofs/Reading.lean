import CurveArith.Proofs.DecimalText
import CurveArith.Text
import CurveArith.Wire.Reader

/-!
What the token readers accept from bytes in memory, and what they leave. A digit run is as long as
it can be, so a reader's answer and the bytes that it leaves determine the bytes that it has read.
-/
namespace CurveArith.Wire.Reader

variable {α β : Type}

section AnySource

variable {σ : Type} {s rest : σ}

theorem runOn_bind (r : Reader σ α) (f : α → Reader σ β) (s : σ) :
    (r >>= f).runOn s = match r.runOn s with
      | (.ok a, s') => (f a).runOn s'
      | (.error e, s') => (.error e, s') := by
  show ExceptT.bindCont f (r.runOn s).1 (r.runOn s).2 = _
  rcases r.runOn s with ⟨_ | _, _⟩ <;> rfl

theorem runOn_pure_eq_ok {a b : α} :
    (pure a : Reader σ α).runOn s = (.ok b, rest) ↔ a = b ∧ s = rest := by
  show (Except.ok a, s) = _ ↔ _
  rw [Prod.mk.injEq, Except.ok.injEq]

theorem runOn_throw_ne_ok {e : CodecError} {a : α} :
    (throw e : Reader σ α).runOn s ≠ (.ok a, rest) := by
  intro h
  cases congrArg Prod.fst h

/-- A run in two parts succeeds where the second part goes on after the first. -/
theorem runOn_bind_eq_ok {r : Reader σ α} {f : α → Reader σ β} {b : β} :
    (r >>= f).runOn s = (.ok b, rest) ↔
      ∃ a s', r.runOn s = (.ok a, s') ∧ (f a).runOn s' = (.ok b, rest) := by
  rw [runOn_bind]
  constructor
  · intro h
    split at h
    · rename_i a s' hr
      exact ⟨a, s', hr, h⟩
    · cases congrArg Prod.fst h
  · intro h
    obtain ⟨a, s', hr, hf⟩ := h
    rw [hr]
    exact hf

end AnySource

variable {s rest : List UInt8}

theorem runOn_byte_eq_ok {b : UInt8} : byte.runOn s = (.ok b, rest) ↔ s = b :: rest := by
  cases s with
  | nil =>
    constructor
    · intro h
      cases congrArg Prod.fst h
    · intro h
      cases h
  | cons c s =>
    show (Except.ok c, s) = _ ↔ _
    rw [Prod.mk.injEq, Except.ok.injEq, List.cons.injEq]

theorem runOn_separator_eq_ok {u : Unit} :
    separator.runOn s = (.ok u, rest) ↔ s = separatorByte :: rest := by
  unfold separator
  simp only [runOn_bind_eq_ok, runOn_byte_eq_ok]
  constructor
  · intro h
    obtain ⟨b, s', rfl, h⟩ := h
    split at h
    · exact absurd h runOn_throw_ne_ok
    · rename_i hb
      rw [Classical.not_not] at hb
      rw [hb, (runOn_pure_eq_ok.1 h).2]
  · intro e
    subst e
    refine ⟨separatorByte, rest, rfl, ?_⟩
    rw [if_neg (fun h => h rfl), runOn_pure_eq_ok]
    exact ⟨rfl, rfl⟩

/-- The digit that stands for a bit. -/
def bitByte (b : Bool) : UInt8 := if b then 0x31 else 0x30

theorem runOn_bit_eq_ok {refused : UInt8 → CodecError} {b : Bool} :
    (bit refused).runOn s = (.ok b, rest) ↔ s = bitByte b :: rest := by
  unfold bit
  simp only [runOn_bind_eq_ok, runOn_byte_eq_ok]
  constructor
  · intro h
    obtain ⟨c, s', rfl, h⟩ := h
    split at h
    · rename_i hc
      obtain ⟨rfl, rfl⟩ := runOn_pure_eq_ok.1 h
      rw [hc]
      rfl
    · split at h
      · rename_i hc
        obtain ⟨rfl, rfl⟩ := runOn_pure_eq_ok.1 h
        rw [hc]
        rfl
      · exact absurd h runOn_throw_ne_ok
  · intro e
    subst e
    refine ⟨bitByte b, rest, rfl, ?_⟩
    cases b <;> exact runOn_pure_eq_ok.2 ⟨rfl, rfl⟩

theorem runOn_endOfInput_eq_ok {u : Unit} :
    endOfInput.runOn s = (.ok u, rest) ↔ s = [] ∧ rest = [] := by
  cases s with
  | nil =>
    show (Except.ok (), []) = _ ↔ _
    rw [Prod.mk.injEq, eq_comm (a := ([] : List UInt8))]
    simp
  | cons b s =>
    refine ⟨fun h => ?_, fun h => ?_⟩
    · cases congrArg Prod.fst h
    · cases h.1

theorem runOn_peek_bind (f : Option UInt8 → Reader (List UInt8) α) (s : List UInt8) :
    (peek >>= f).runOn s = (f s.head?).runOn s := by
  rw [runOn_bind]
  rfl

theorem runOn_skip_bind (r : Reader (List UInt8) α) (b : UInt8) (s : List UInt8) :
    (skip >>= fun _ => r).runOn (b :: s) = r.runOn s := by
  rw [runOn_bind]
  rfl

/-- The characters of a digit run. -/
def digitChars (bs : List UInt8) : List Char := bs.map fun b => Char.ofNat b.toNat

@[simp] theorem length_digitChars (bs : List UInt8) : (digitChars bs).length = bs.length :=
  List.length_map _

/-- Before a byte that is no digit, or at the end, the run is empty. -/
theorem runOn_digits_of_stop {k : ℕ} {ds : List Char} (h : ∀ b ∈ s.head?, isDigit b = false) :
    (digits k).runOn s = (.ok ds, rest) ↔ ds = digitChars [] ∧ ds.length ≤ k ∧ rest = s := by
  have hrun : (digits k).runOn s = (.ok [], s) := by
    cases s with
    | nil => cases k <;> rfl
    | cons b s =>
      have hb : ¬isDigit b := Bool.eq_false_iff.1 (h b rfl)
      cases k <;> rw [digits, runOn_peek_bind, List.head?_cons] <;> simp only [if_neg hb] <;> rfl
  rw [hrun, Prod.mk.injEq, Except.ok.injEq]
  constructor
  · intro h
    obtain ⟨rfl, rfl⟩ := h
    exact ⟨rfl, Nat.zero_le k, rfl⟩
  · intro h
    exact ⟨h.1.symm, h.2.2.symm⟩

/-- A digit that is one too many is refused and stays. -/
theorem runOn_digits_zero_cons {b : UInt8} (hb : isDigit b) :
    (digits 0).runOn (b :: s) = (.error (.field .invalidElement), b :: s) := by
  rw [digits, runOn_peek_bind, List.head?_cons]
  simp only [if_pos hb]
  rfl

/-- A digit that is allowed is taken, and the run goes on behind it. -/
theorem runOn_digits_succ_cons {k : ℕ} {b : UInt8} (hb : isDigit b) :
    (digits (k + 1)).runOn (b :: s) =
      (digits k >>= fun ds => pure (Char.ofNat b.toNat :: ds)).runOn s := by
  rw [digits, runOn_peek_bind, List.head?_cons]
  simp only [if_pos hb]
  exact runOn_skip_bind _ b s

/-- The reader takes the longest run of digits, if it is not too long. -/
theorem runOn_digits_eq_ok {k : ℕ} {ds : List Char} :
    (digits k).runOn s = (.ok ds, rest) ↔
      ds = digitChars (s.takeWhile isDigit) ∧ ds.length ≤ k ∧ rest = s.dropWhile isDigit := by
  induction s generalizing k ds rest with
  | nil => exact runOn_digits_of_stop fun b hb => nomatch hb
  | cons b s ih =>
    by_cases hb : isDigit b
    · rw [List.takeWhile_cons_of_pos hb, List.dropWhile_cons_of_pos hb]
      cases k with
      | zero =>
        rw [runOn_digits_zero_cons hb]
        constructor
        · intro h
          cases h
        · intro h
          obtain ⟨rfl, hk, -⟩ := h
          exact absurd hk (Nat.not_succ_le_zero _)
      | succ k =>
        rw [runOn_digits_succ_cons hb, runOn_bind_eq_ok]
        simp only [ih, runOn_pure_eq_ok]
        constructor
        · intro h
          obtain ⟨ds', s', ⟨rfl, hk, rfl⟩, rfl, rfl⟩ := h
          exact ⟨rfl, Nat.succ_le_succ hk, rfl⟩
        · intro h
          obtain ⟨rfl, hk, rfl⟩ := h
          exact ⟨_, _, ⟨rfl, Nat.le_of_succ_le_succ hk, rfl⟩, rfl, rfl⟩
    · rw [List.takeWhile_cons_of_neg hb, List.dropWhile_cons_of_neg hb]
      apply runOn_digits_of_stop
      intro c hc
      obtain rfl := Option.some.inj hc
      exact Bool.eq_false_iff.2 hb

/-- The digits in `run` are all that stand in front of `rest`. -/
structure LongestRun (run rest : List UInt8) : Prop where
  isDigit : ∀ b ∈ run, isDigit b
  stop : ∀ b ∈ rest.head?, Reader.isDigit b = false

theorem longestRun_takeWhile (s : List UInt8) :
    LongestRun (s.takeWhile isDigit) (s.dropWhile isDigit) where
  isDigit _ hb := List.mem_takeWhile_imp hb
  stop b hb := by
    have h := List.head?_dropWhile_not isDigit s
    rw [Option.mem_def.1 hb] at h
    exact h

theorem LongestRun.span_eq {run : List UInt8} (h : LongestRun run rest) :
    (run ++ rest).takeWhile Reader.isDigit = run ∧
      (run ++ rest).dropWhile Reader.isDigit = rest := by
  have hstop : rest.takeWhile Reader.isDigit = [] ∧ rest.dropWhile Reader.isDigit = rest := by
    cases rest with
    | nil => exact ⟨rfl, rfl⟩
    | cons b rest =>
      have hb : ¬Reader.isDigit b := Bool.eq_false_iff.1 (h.stop b rfl)
      exact ⟨List.takeWhile_cons_of_neg hb, List.dropWhile_cons_of_neg hb⟩
  rw [List.takeWhile_append_of_pos h.isDigit, List.dropWhile_append_of_pos h.isDigit, hstop.1,
    hstop.2, List.append_nil]
  exact ⟨rfl, rfl⟩

/-- A run is taken that is not too long, and that no digit follows. -/
theorem runOn_digits_eq_ok_iff_run {k : ℕ} {ds : List Char} :
    (digits k).runOn s = (.ok ds, rest) ↔
      ∃ run, s = run ++ rest ∧ ds = digitChars run ∧ run.length ≤ k ∧ LongestRun run rest := by
  rw [runOn_digits_eq_ok]
  constructor
  · rintro ⟨rfl, hk, rfl⟩
    rw [length_digitChars] at hk
    exact ⟨_, List.takeWhile_append_dropWhile.symm, rfl, hk, longestRun_takeWhile s⟩
  · rintro ⟨run, rfl, rfl, hk, hrun⟩
    rw [hrun.span_eq.1, hrun.span_eq.2, length_digitChars]
    exact ⟨rfl, hk, rfl⟩

/-- A digit is one byte in UTF-8, whose code is that of the digit. -/
theorem exists_digitByte {c : Char} (h : c.isDigit) :
    ∃ b, String.utf8EncodeChar c = [b] ∧ isDigit b ∧ Char.ofNat b.toNat = c := by
  rw [Char.isDigit, Bool.and_eq_true, decide_eq_true_iff, decide_eq_true_iff] at h
  have hlo : 48 ≤ c.toNat := h.1
  have hhi : c.toNat ≤ 57 := h.2
  have hsize : c.utf8Size = 1 := by
    rw [Char.utf8Size_eq_one_iff, UInt32.le_iff_toNat_le]
    exact hhi.trans (by decide)
  have hb : c.val.toUInt8.toNat = c.toNat := by
    rw [UInt32.toNat_toUInt8]
    exact Nat.mod_eq_of_lt (hhi.trans_lt (by decide))
  refine ⟨c.val.toUInt8, String.utf8EncodeChar_eq_singleton hsize, ?_, ?_⟩
  · rw [isDigit, Bool.and_eq_true, decide_eq_true_iff, decide_eq_true_iff, UInt8.le_iff_toNat_le,
      UInt8.le_iff_toNat_le, hb]
    exact ⟨hlo, hhi⟩
  · rw [hb, Char.ofNat_toNat]

/-- The bytes of a text of digits are a digit run that gives back the text. -/
theorem utf8_digits {text : String} (h : ∀ c ∈ text.toList, c.isDigit) :
    (∀ b ∈ Text.utf8 text, isDigit b) ∧ digitChars (Text.utf8 text) = text.toList := by
  unfold Text.utf8
  generalize text.toList = ds at h
  induction ds with
  | nil => exact ⟨fun b hb => absurd hb List.not_mem_nil, rfl⟩
  | cons c ds ih =>
    obtain ⟨b, hb, hd, hc⟩ := exists_digitByte (h c List.mem_cons_self)
    obtain ⟨hall, hds⟩ := ih fun c hc => h c (List.mem_cons_of_mem _ hc)
    rw [List.flatMap_cons, hb, List.singleton_append]
    refine ⟨List.forall_mem_cons.2 ⟨hd, hall⟩, ?_⟩
    rw [digitChars, List.map_cons, hc, ← digitChars, hds]

variable {F : PrimeField} {x : F.Elem}

/-- A digit run for an element: no longer than the modulus, with the standard integer as value. -/
structure CoordinateRun (run : List UInt8) (x : F.Elem) : Prop where
  isDigit : ∀ b ∈ run, isDigit b
  length_le : run.length ≤ F.modulus.decimal.length
  digits : Digits (digitChars run) x.standard.toNat

/-- A coordinate is a run that no further digit follows. -/
theorem runOn_coordinate_eq_ok : (coordinate F).runOn s = (.ok x, rest) ↔
    ∃ run, s = run ++ rest ∧ CoordinateRun run x ∧
      ∀ b ∈ rest.head?, Reader.isDigit b = false := by
  unfold coordinate
  rw [runOn_bind_eq_ok]
  simp only [runOn_digits_eq_ok_iff_run]
  constructor
  · rintro ⟨_, s', ⟨run, rfl, rfl, hk, hrun⟩, h⟩
    split at h
    · obtain ⟨_, _, hthrow, -⟩ := runOn_bind_eq_ok.1 h
      exact absurd hthrow runOn_throw_ne_ok
    · split at h
      · rename_i y hy
        obtain ⟨rfl, rfl⟩ := runOn_pure_eq_ok.1 h
        rw [PrimeField.Elem.parse_eq_ok_iff, String.toList_ofList] at hy
        exact ⟨run, rfl, ⟨hrun.isDigit, hk, hy⟩, hrun.stop⟩
      · exact absurd h runOn_throw_ne_ok
  · rintro ⟨run, rfl, hrun, hstop⟩
    have hparse : PrimeField.Elem.parse F (String.ofList (digitChars run)) = .ok x := by
      rw [PrimeField.Elem.parse_eq_ok_iff, String.toList_ofList]
      exact hrun.digits
    refine ⟨_, _, ⟨run, rfl, rfl, hrun.length_le, ⟨hrun.isDigit, hstop⟩⟩, ?_⟩
    rw [if_neg (by rw [List.isEmpty_iff]; exact hrun.digits.ne_nil), hparse]
    exact runOn_pure_eq_ok.2 ⟨rfl, rfl⟩

theorem coordinateRun_decimal (x : F.Elem) : CoordinateRun (Text.utf8 x.decimal) x := by
  have hd := Digits.toDigits x.standard.toNat
  rw [← PrimeField.Elem.toList_decimal] at hd
  obtain ⟨hall, hchars⟩ := utf8_digits hd.isDigit
  refine ⟨hall, ?_, by rwa [hchars]⟩
  rw [← length_digitChars, hchars, String.length_toList]
  exact PrimeField.Elem.length_decimal_le x

end CurveArith.Wire.Reader
