import CurveArith.Proofs.Grammar
import CurveArith.Proofs.PointStream

/-!
Where a read fails. An encoded point is a sequence of tokens, and a read fails at the first token
that it cannot accept, or at a compressed point that does not exist. What is left behind an error
tells which byte was at fault: a byte that should be a flag, a separator or a parity is taken before
it is refused, a byte that ends or overlengthens a run of digits is not.
-/
namespace CurveArith

namespace Wire

open Reader

/-- The parts of an encoded point: single bytes, of which some are allowed and all others refused,
and coordinates. -/
inductive Token where
  | single (allowed : List UInt8) (refused : UInt8 → CodecError)
  | coordinate

namespace Token

def flag : Token := single [0x30, 0x31] .invalidFlag

def separator : Token := single [separatorByte] .missingSeparator

def parity : Token := single [0x30, 0x31] .invalidYBit

/-- The bytes `run` are the token, if `rest` follows. -/
def Accepts (F : PrimeField) : Token → List UInt8 → List UInt8 → Prop
  | single allowed _, run, _ => ∃ b ∈ allowed, run = [b]
  | coordinate, run, rest =>
    (∃ x : F.Elem, CoordinateRun run x) ∧ ∀ b ∈ rest.head?, isDigit b = false

/-- The token is refused on `bytes` with an error that leaves `rest`. -/
inductive Refuses (F : PrimeField) : Token → List UInt8 → List UInt8 → CodecError → Prop
  | ended {allowed refused} : Refuses F (single allowed refused) [] [] .unexpectedEof
  | other {allowed refused b rest} (h : b ∉ allowed) :
    Refuses F (single allowed refused) (b :: rest) rest (refused b)
  | noDigit {bytes} (h : LongestRun [] bytes) : Refuses F coordinate bytes bytes .expectedDigits
  | tooLong {run b rest} (hrun : ∀ c ∈ run, isDigit c) (hb : isDigit b)
    (hlength : run.length = (Nat.toDigits 10 F.p).length) :
    Refuses F coordinate (run ++ b :: rest) (b :: rest) (.field .invalidElement)
  | tooLarge {run rest v} (hrun : LongestRun run rest)
    (hlength : run.length ≤ (Nat.toDigits 10 F.p).length) (hv : Digits (digitChars run) v)
    (hle : F.p ≤ v) :
    Refuses F coordinate (run ++ rest) rest (.field (PrimeField.Elem.excess F v))

end Token

/-- The first token that is refused comes behind tokens that are accepted. -/
inductive FailsIn (F : PrimeField) :
    List Token → List UInt8 → List UInt8 → CodecError → Prop
  | here {token tokens bytes rest e} (h : token.Refuses F bytes rest e) :
    FailsIn F (token :: tokens) bytes rest e
  | later {token tokens run mid rest e} (ht : token.Accepts F run mid)
    (h : FailsIn F tokens mid rest e) : FailsIn F (token :: tokens) (run ++ mid) rest e

def Form.tokens : Form → List Token
  | .compressed => [.flag, .separator, .coordinate, .separator, .parity]
  | .uncompressed => [.flag, .separator, .coordinate, .separator, .coordinate]

/-- The read of a form fails on `bytes` with an error that leaves `rest`: at a token, or behind the
last token of a compressed point if no point has the abscissa. -/
inductive Form.Refuses (C : Curve) : Form → List UInt8 → List UInt8 → CodecError → Prop
  | token {form bytes rest e} (h : FailsIn C.base form.tokens bytes rest e) :
    Form.Refuses C form bytes rest e
  | noPoint {run x odd rest} (hrun : CoordinateRun run x) (h : Point.ofAbscissa? C x odd = none) :
    Form.Refuses C .compressed
      (bitByte false :: separatorByte :: (run ++ separatorByte :: bitByte odd :: rest)) rest
      .noSquareRoot

variable {F : PrimeField} {C : Curve} {α β : Type} {bytes rest : List UInt8} {e : CodecError}

theorem failsIn_cons {token : Token} {tokens : List Token} :
    FailsIn F (token :: tokens) bytes rest e ↔ token.Refuses F bytes rest e ∨
      ∃ run mid, bytes = run ++ mid ∧ token.Accepts F run mid ∧ FailsIn F tokens mid rest e := by
  constructor
  · intro h
    cases h with
    | here h => exact .inl h
    | later ht h => exact .inr ⟨_, _, rfl, ht, h⟩
  · rintro (h | ⟨run, mid, rfl, ht, h⟩)
    · exact .here h
    · exact .later ht h

namespace Reader

section AnySource

variable {σ : Type} {s left : σ}

theorem runOn_bind_eq_error {r : Reader σ α} {f : α → Reader σ β} :
    (r >>= f).runOn s = (.error e, left) ↔ r.runOn s = (.error e, left) ∨
      ∃ a s', r.runOn s = (.ok a, s') ∧ (f a).runOn s' = (.error e, left) := by
  rw [runOn_bind]
  rcases hr : r.runOn s with ⟨_ | a, s'⟩ <;> simp

theorem runOn_pure_ne_error {a : α} : (pure a : Reader σ α).runOn s ≠ (.error e, left) := by
  intro h
  cases congrArg Prod.fst h

theorem runOn_throw_eq_error {e' : CodecError} :
    (throw e' : Reader σ α).runOn s = (.error e, left) ↔ e' = e ∧ s = left := by
  show (Except.error e', s) = _ ↔ _
  rw [Prod.mk.injEq, Except.error.injEq]

end AnySource

theorem isDigit_digitChars {run : List UInt8} (h : ∀ b ∈ run, isDigit b) :
    ∀ c ∈ digitChars run, c.isDigit := by
  intro c hc
  obtain ⟨b, hb, rfl⟩ := List.mem_map.1 hc
  have hd := h b hb
  rw [isDigit, Bool.and_eq_true, decide_eq_true_iff, decide_eq_true_iff, UInt8.le_iff_toNat_le,
    UInt8.le_iff_toNat_le] at hd
  have hhi : b.toNat ≤ 57 := hd.2
  have hvalid : b.toNat.isValidChar := .inl (by omega)
  have hcode : (Char.ofNat b.toNat).toNat = b.toNat := by rw [Char.toNat_ofNat, if_pos hvalid]
  rw [Char.isDigit_iff_toNat, hcode]
  exact hd

/-- Before a byte that is no digit, or at the end, no run is too long. -/
theorem runOn_digits_eq_error_of_stop {k : ℕ} (h : ∀ b ∈ bytes.head?, isDigit b = false) :
    (digits k).runOn bytes = (.error e, rest) ↔ ∃ run b tail, bytes = run ++ b :: tail ∧
      rest = b :: tail ∧ e = .field .invalidElement ∧ (∀ c ∈ run, isDigit c) ∧ isDigit b ∧
      run.length = k := by
  apply iff_of_false
  · have hrun : (digits k).runOn bytes = (.ok [], bytes) :=
      (runOn_digits_of_stop h).2 ⟨rfl, Nat.zero_le k, rfl⟩
    rw [hrun]
    exact runOn_pure_ne_error
  · rintro ⟨run, b, tail, rfl, -, -, hrun, hb, -⟩
    cases run with
    | nil => exact Bool.eq_false_iff.1 (h b rfl) hb
    | cons c run => exact Bool.eq_false_iff.1 (h c rfl) (hrun c List.mem_cons_self)

/-- A run that goes on behind the last digit that is allowed is refused there. -/
theorem runOn_digits_eq_error {k : ℕ} :
    (digits k).runOn bytes = (.error e, rest) ↔ ∃ run b tail, bytes = run ++ b :: tail ∧
      rest = b :: tail ∧ e = .field .invalidElement ∧ (∀ c ∈ run, isDigit c) ∧ isDigit b ∧
      run.length = k := by
  induction bytes generalizing k with
  | nil => exact runOn_digits_eq_error_of_stop fun b hb => nomatch hb
  | cons c bytes ih =>
    by_cases hc : isDigit c
    · cases k with
      | zero =>
        rw [runOn_digits_zero_cons hc]
        constructor
        · rintro ⟨⟩
          exact ⟨[], c, bytes, rfl, rfl, rfl, fun _ hd => absurd hd List.not_mem_nil, hc, rfl⟩
        · rintro ⟨run, b, tail, h, rfl, rfl, -, -, hrun⟩
          rw [List.length_eq_zero_iff.1 hrun] at h
          rw [h]
          rfl
      | succ k =>
        rw [runOn_digits_succ_cons hc, runOn_bind_eq_error, ih]
        constructor
        · rintro (⟨run, b, tail, rfl, rfl, rfl, hrun, hb, hlength⟩ | ⟨_, _, -, h⟩)
          · refine ⟨c :: run, b, tail, rfl, rfl, rfl, ?_, hb, congrArg Nat.succ hlength⟩
            exact List.forall_mem_cons.2 ⟨hc, hrun⟩
          · exact absurd h runOn_pure_ne_error
        · rintro ⟨run, b, tail, h, rfl, rfl, hrun, hb, hlength⟩
          cases run with
          | nil => cases hlength
          | cons d run =>
            obtain ⟨rfl, rfl⟩ := List.cons.inj h
            exact .inl ⟨run, b, tail, rfl, rfl, rfl, (List.forall_mem_cons.1 hrun).2, hb,
              Nat.succ.inj hlength⟩
    · apply runOn_digits_eq_error_of_stop
      intro d hd
      obtain rfl := Option.some.inj hd
      exact Bool.eq_false_iff.2 hc

/-- A run that is not too long fails behind its digits, if there are none or if their number is not
below the modulus. -/
theorem runOn_coordinate_of_run {run left : List UInt8} (hrun : LongestRun run left)
    (hlength : run.length ≤ F.modulus.decimal.length) :
    (coordinate F).runOn (run ++ left) = (.error e, rest) ↔ left = rest ∧
      (run = [] ∧ e = .expectedDigits ∨
        ∃ v, Digits (digitChars run) v ∧ F.p ≤ v ∧ e = .field (PrimeField.Elem.excess F v)) := by
  unfold coordinate
  rw [runOn_bind, runOn_digits_eq_ok_iff_run.2 ⟨run, rfl, rfl, hlength, hrun⟩]
  simp only
  by_cases hempty : run = []
  · subst hempty
    constructor
    · rintro ⟨⟩
      exact ⟨rfl, .inl ⟨rfl, rfl⟩⟩
    · rintro ⟨rfl, ⟨-, rfl⟩ | ⟨v, hv, -⟩⟩
      · rfl
      · exact absurd rfl hv.ne_nil
  · have hne : digitChars run ≠ [] := fun he => hempty (List.map_eq_nil_iff.1 he)
    have hdigits : ∀ {v}, Digits (digitChars run) v →
        Digits (String.ofList (digitChars run)).toList v := fun hv => by rwa [String.toList_ofList]
    rw [if_neg (by rwa [List.isEmpty_iff]), or_iff_right fun he => hempty he.1]
    cases hparse : PrimeField.Elem.parse F (String.ofList (digitChars run)) with
    | ok x =>
      apply iff_of_false runOn_pure_ne_error
      rintro ⟨-, v, hv, hle, -⟩
      rw [(PrimeField.Elem.parse_eq_error_iff (hdigits hv)).2 ⟨hle, rfl⟩] at hparse
      cases hparse
    | error cause =>
      rw [runOn_throw_eq_error, and_comm]
      apply and_congr_right'
      constructor
      · rintro rfl
        have hv : Digits (digitChars run) _ := ⟨hne, isDigit_digitChars hrun.isDigit, rfl⟩
        obtain ⟨hle, rfl⟩ := (PrimeField.Elem.parse_eq_error_iff (hdigits hv)).1 hparse
        exact ⟨_, hv, hle, rfl⟩
      · rintro ⟨v, hv, -, rfl⟩
        rw [((PrimeField.Elem.parse_eq_error_iff (hdigits hv)).1 hparse).2]

end Reader

/-- The reader reads one token: it succeeds behind the token, and fails where the token is
refused. -/
structure Reads (F : PrimeField) (token : Token) (r : Reader (List UInt8) α) : Prop where
  accepts : ∀ {bytes rest}, (∃ a, r.runOn bytes = (.ok a, rest)) ↔
    ∃ run, bytes = run ++ rest ∧ token.Accepts F run rest
  refuses : ∀ {bytes rest e}, r.runOn bytes = (.error e, rest) ↔ token.Refuses F bytes rest e

namespace Reads

theorem byte_cases {allowed : List UInt8} {refused : UInt8 → CodecError}
    {f : UInt8 → Reader (List UInt8) α}
    (hallowed : ∀ b ∈ allowed, ∀ s, ∃ a, (f b).runOn s = (.ok a, s))
    (hrefused : ∀ b ∉ allowed, ∀ s, (f b).runOn s = (.error (refused b), s)) :
    Reads F (.single allowed refused) (byte >>= f) where
  accepts := by
    intro bytes rest
    simp only [runOn_bind_eq_ok, runOn_byte_eq_ok]
    constructor
    · rintro ⟨a, b, s', rfl, h⟩
      by_cases hb : b ∈ allowed
      · obtain ⟨a', ha⟩ := hallowed b hb s'
        rw [ha] at h
        cases h
        exact ⟨[b], rfl, b, hb, rfl⟩
      · rw [hrefused b hb] at h
        cases h
    · rintro ⟨_, rfl, b, hb, rfl⟩
      obtain ⟨a, ha⟩ := hallowed b hb rest
      exact ⟨a, b, rest, rfl, ha⟩
  refuses := by
    intro bytes rest e
    cases bytes with
    | nil =>
      have hrun : (byte >>= f).runOn ([] : List UInt8) = (.error .unexpectedEof, []) := rfl
      rw [hrun]
      constructor
      · rintro ⟨⟩
        exact .ended
      · rintro ⟨⟩
        rfl
    | cons b s =>
      have hrun : (byte >>= f).runOn (b :: s) = (f b).runOn s := rfl
      rw [hrun]
      constructor
      · intro h
        by_cases hb : b ∈ allowed
        · obtain ⟨a, ha⟩ := hallowed b hb s
          rw [ha] at h
          cases h
        · rw [hrefused b hb] at h
          cases h
          exact .other hb
      · intro h
        cases h with
        | other hb => exact hrefused b hb _

theorem bit (refused : UInt8 → CodecError) :
    Reads F (.single [0x30, 0x31] refused) (Reader.bit refused) := by
  apply byte_cases
  · intro b hb s
    rcases List.mem_cons.1 hb with rfl | hb
    · exact ⟨false, rfl⟩
    · rw [List.mem_singleton.1 hb]
      exact ⟨true, rfl⟩
  · intro b hb s
    rw [List.mem_cons, List.mem_singleton, not_or] at hb
    simp only [if_neg hb.1, if_neg hb.2]
    rfl

theorem separator : Reads F .separator Reader.separator := by
  apply byte_cases
  · intro b hb s
    rw [List.mem_singleton.1 hb]
    exact ⟨(), rfl⟩
  · intro b hb s
    rw [if_pos (fun h => hb (List.mem_singleton.2 h))]
    rfl

theorem coordinate (F : PrimeField) : Reads F .coordinate (Reader.coordinate F) where
  accepts := by
    intro bytes rest
    simp only [runOn_coordinate_eq_ok]
    constructor
    · rintro ⟨x, run, rfl, hrun, hrest⟩
      exact ⟨run, rfl, ⟨x, hrun⟩, hrest⟩
    · rintro ⟨run, rfl, ⟨x, hrun⟩, hrest⟩
      exact ⟨x, run, rfl, hrun, hrest⟩
  refuses := by
    intro bytes rest e
    constructor
    · intro h
      have hbind := h
      rw [Reader.coordinate, runOn_bind_eq_error] at hbind
      rcases hbind with hdigits | ⟨_, left, hdigits, -⟩
      · obtain ⟨run, b, tail, rfl, rfl, rfl, hrun, hb, hlength⟩ := runOn_digits_eq_error.1 hdigits
        exact .tooLong hrun hb (hlength.trans (length_modulus_decimal F))
      · obtain ⟨run, rfl, rfl, hlength, hrun⟩ := runOn_digits_eq_ok_iff_run.1 hdigits
        obtain ⟨rfl, ⟨rfl, rfl⟩ | ⟨v, hv, hle, rfl⟩⟩ :=
          (runOn_coordinate_of_run hrun hlength).1 h
        · exact .noDigit hrun
        · exact .tooLarge hrun (hlength.trans_eq (length_modulus_decimal F)) hv hle
    · intro h
      cases h with
      | noDigit hrun =>
        exact (runOn_coordinate_of_run hrun (Nat.zero_le _)).2 ⟨rfl, .inl ⟨rfl, rfl⟩⟩
      | tooLong hrun hb hlength =>
        rw [← length_modulus_decimal] at hlength
        rw [Reader.coordinate, runOn_bind_eq_error]
        exact .inl (runOn_digits_eq_error.2 ⟨_, _, _, rfl, rfl, rfl, hrun, hb, hlength⟩)
      | tooLarge hrun hlength hv hle =>
        rw [← length_modulus_decimal] at hlength
        exact (runOn_coordinate_of_run hrun hlength).2 ⟨rfl, .inr ⟨_, hv, hle, rfl⟩⟩

end Reads

/-- The reader reads the tokens in turn: it fails where they do, or late, behind the last one. -/
def FailsBy (F : PrimeField) (tokens : List Token)
    (late : List UInt8 → List UInt8 → CodecError → Prop) (r : Reader (List UInt8) α) : Prop :=
  ∀ bytes rest e,
    r.runOn bytes = (.error e, rest) ↔ FailsIn F tokens bytes rest e ∨ late bytes rest e

section FailsBy

variable {late : List UInt8 → List UInt8 → CodecError → Prop} {r : Reader (List UInt8) α}

theorem not_failsIn_nil : ¬FailsIn F [] bytes rest e := by
  intro h
  cases h

theorem FailsBy.of_pure (a : α) :
    FailsBy F [] (fun _ _ _ => False) (pure a : Reader (List UInt8) α) := by
  intro bytes rest e
  rw [or_false, iff_false_right not_failsIn_nil]
  exact runOn_pure_ne_error

/-- A result that may be missing fails late. -/
theorem FailsBy.of_option (o : Option α) (missing : CodecError)
    (hsome : ∀ a, o = some a → r = pure a) (hnone : o = none → r = throw missing) :
    FailsBy F [] (fun bytes rest e => o = none ∧ missing = e ∧ bytes = rest) r := by
  intro bytes rest e
  rw [or_iff_right not_failsIn_nil]
  cases o with
  | none =>
    rw [hnone rfl, runOn_throw_eq_error]
    exact (and_iff_right rfl).symm
  | some a =>
    rw [hsome a rfl, iff_false_right (fun h => Option.some_ne_none a h.1)]
    exact runOn_pure_ne_error

/-- Only one branch can fail late. -/
theorem FailsBy.ite (a : α) (c : Bool) (h : FailsBy F [] late r) :
    FailsBy F [] (fun bytes rest e => c = false ∧ late bytes rest e)
      (if c then pure a else r) := by
  intro bytes rest e
  rw [or_iff_right not_failsIn_nil]
  cases c with
  | true => exact ⟨fun h => absurd h runOn_pure_ne_error, fun h => absurd h.1 Bool.true_eq_false.mp⟩
  | false =>
    rw [if_neg Bool.false_ne_true, h, or_iff_right not_failsIn_nil]
    exact (and_iff_right rfl).symm

end FailsBy

theorem Reads.bind {token : Token} {tokens : List Token} {r : Reader (List UInt8) α}
    {f : α → Reader (List UInt8) β} {late : α → List UInt8 → List UInt8 → CodecError → Prop}
    (h : Reads F token r) (hf : ∀ a, FailsBy F tokens (late a) (f a)) :
    FailsBy F (token :: tokens)
      (fun bytes rest e => ∃ a mid, r.runOn bytes = (.ok a, mid) ∧ late a mid rest e)
      (r >>= f) := by
  intro bytes rest e
  rw [runOn_bind_eq_error, failsIn_cons, h.refuses, or_assoc]
  apply or_congr Iff.rfl
  constructor
  · rintro ⟨a, mid, hr, hfail⟩
    rcases (hf a _ _ _).1 hfail with hfail | hlate
    · obtain ⟨run, rfl, haccepts⟩ := h.accepts.1 ⟨a, hr⟩
      exact .inl ⟨run, mid, rfl, haccepts, hfail⟩
    · exact .inr ⟨a, mid, hr, hlate⟩
  · rintro (⟨run, mid, rfl, haccepts, hfail⟩ | ⟨a, mid, hr, hlate⟩)
    · obtain ⟨a, hr⟩ := h.accepts.2 ⟨run, rfl, haccepts⟩
      exact ⟨a, mid, hr, (hf a _ _ _).2 (.inl hfail)⟩
    · exact ⟨a, mid, hr, (hf a _ _ _).2 (.inr hlate)⟩

theorem runOn_readCompressed_eq_error : (readCompressed C).runOn bytes = (.error e, rest) ↔
    Form.compressed.Refuses C bytes rest e := by
  have h : FailsBy C.base Form.compressed.tokens _ (readCompressed C) :=
    (Reads.bit .invalidFlag).bind fun isZero => Reads.separator.bind fun _ =>
      (Reads.coordinate C.base).bind fun x => Reads.separator.bind fun _ =>
        (Reads.bit .invalidYBit).bind fun odd => .ite (Point.zero C) isZero
          (.of_option (Point.ofAbscissa? C x odd) .noSquareRoot (fun P hP => by rw [hP])
            fun h => by rw [h])
  refine (h bytes rest e).trans ?_
  constructor
  · rintro (hfail | ⟨isZero, _, hflag, _, _, hsep, x, _, hx, _, _, hsep', odd, _, hodd, rfl,
      hnone, rfl, rfl⟩)
    · exact .token hfail
    · obtain rfl := runOn_bit_eq_ok.1 hflag
      obtain rfl := runOn_separator_eq_ok.1 hsep
      obtain ⟨run, rfl, hrun, -⟩ := runOn_coordinate_eq_ok.1 hx
      obtain rfl := runOn_separator_eq_ok.1 hsep'
      obtain rfl := runOn_bit_eq_ok.1 hodd
      exact .noPoint hrun hnone
  · intro hrefused
    cases hrefused with
    | token hfail => exact .inl hfail
    | @noPoint run x odd _ hrun hnone =>
      have hstop : ∀ b ∈ (separatorByte :: bitByte odd :: rest).head?, isDigit b = false := by
        rintro b ⟨⟩
        rfl
      exact .inr ⟨false, _, runOn_bit_eq_ok.2 rfl, (), _, runOn_separator_eq_ok.2 rfl, x, _,
        runOn_coordinate_eq_ok.2 ⟨run, rfl, hrun, hstop⟩, (), _, runOn_separator_eq_ok.2 rfl, odd,
        _, runOn_bit_eq_ok.2 rfl, rfl, hnone, rfl, rfl⟩

theorem runOn_readUncompressed_eq_error : (readUncompressed C).runOn bytes = (.error e, rest) ↔
    Form.uncompressed.Refuses C bytes rest e := by
  have h : FailsBy C.base Form.uncompressed.tokens _ (readUncompressed C) :=
    (Reads.bit .invalidFlag).bind fun isZero => Reads.separator.bind fun _ =>
      (Reads.coordinate C.base).bind fun x => Reads.separator.bind fun _ =>
        (Reads.coordinate C.base).bind fun y =>
          .ite (Point.zero C) isZero (.of_pure (Point.affine x y))
  refine (h bytes rest e).trans ?_
  constructor
  · rintro (hfail | ⟨_, _, -, _, _, -, _, _, -, _, _, -, _, _, -, -, hfalse⟩)
    · exact .token hfail
    · exact hfalse.elim
  · intro hrefused
    cases hrefused with
    | token hfail => exact .inl hfail

/-- From memory a read fails exactly where the form is refused. -/
theorem runOn_read_eq_error (form : Form) :
    (form.read C).runOn bytes = (.error e, rest) ↔ form.Refuses C bytes rest e := by
  cases form with
  | compressed => exact runOn_readCompressed_eq_error
  | uncompressed => exact runOn_readUncompressed_eq_error

end Wire
end CurveArith
