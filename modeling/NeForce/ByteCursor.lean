import NeForce.Bits
import NeForce.Words
import NeForce.Runs

/-! # The byte cursor

The reads of whole bytes compare `pos + count` with the size in `size_t`.  The reads of bits shift the bytes that they
take into a buffer of 64 bits. -/

namespace NeForce

structure ByteCursor where
  data : Bytes
  pos : ℕ
  bitBuf : BitVec 64
  bitsInBuf : ℕ

namespace ByteCursor

variable {c : ByteCursor} {n fuel : ℕ} {b : UInt8}

def ofBytes (data : Bytes) : ByteCursor := ⟨data, 0, 0, 0⟩

def size (c : ByteCursor) : ℕ := c.data.length

def exhausted (c : ByteCursor) : Bool := decide (c.size ≤ c.pos)

def tryReadByte (c : ByteCursor) : ByteCursor × Option UInt8 :=
  if c.size ≤ c.pos then (c, none) else ({ c with pos := c.pos + 1 }, some (c.data.getD c.pos 0))

def peekByte (c : ByteCursor) : Option UInt8 := if c.size ≤ c.pos then none else some (c.data.getD c.pos 0)

/-- `pos_ + count > size_`, a sum of 64 bits. -/
def lacks (c : ByteCursor) (count : ℕ) : Bool := decide (c.size < (c.pos + count) % 2 ^ 64)

/-- The position after `count` more bytes. -/
def advance (c : ByteCursor) (count : ℕ) : ByteCursor := { c with pos := (c.pos + count) % 2 ^ 64 }

/-- A number of `width` bytes. -/
def tryReadNumber (read : Bytes → ℕ) (width : ℕ) (c : ByteCursor) : ByteCursor × Option ℕ :=
  if c.lacks width then (c, none) else (c.advance width, some (read ((c.data.drop c.pos).take width)))

def tryReadBe16 : ByteCursor → ByteCursor × Option ℕ := tryReadNumber readBe 2

def tryReadBe24 : ByteCursor → ByteCursor × Option ℕ := tryReadNumber readBe 3

def tryReadBe32 : ByteCursor → ByteCursor × Option ℕ := tryReadNumber readBe 4

def tryReadBe64 : ByteCursor → ByteCursor × Option ℕ := tryReadNumber readBe 8

def tryReadLe16 : ByteCursor → ByteCursor × Option ℕ := tryReadNumber readLe 2

def tryReadLe32 : ByteCursor → ByteCursor × Option ℕ := tryReadNumber readLe 4

def tryReadLe64 : ByteCursor → ByteCursor × Option ℕ := tryReadNumber readLe 8

/-- The view that is handed out is its first index and its length. -/
def tryReadBytes (c : ByteCursor) (count : UInt64) : ByteCursor × Option (ℕ × ℕ) :=
  if c.lacks count.toNat then (c, none) else (c.advance count.toNat, some (c.pos, count.toNat))

def skip (c : ByteCursor) (count : UInt64) : ByteCursor × Bool :=
  if c.lacks count.toNat then (c, false) else (c.advance count.toNat, true)

/-! ### Bits -/

/-- A shift of a word by its width or more is undefined. -/
def shiftRight (word : BitVec 64) (count : ℕ) : Option (BitVec 64) := if count < 64 then some (word >>> count) else none

def bitMask (n : ℕ) : BitVec 64 := if n = 64 then BitVec.allOnes 64 else (1 : BitVec 64) <<< n - 1

/-- A byte behind the bits that are buffered. -/
def push (c : ByteCursor) (b : UInt8) : ByteCursor :=
  { c with bitBuf := c.bitBuf <<< 8 ||| BitVec.ofNat 64 b.toNat, bitsInBuf := (c.bitsInBuf + 8) % 2 ^ 64 }

/-- The loop of `try_read_bits`, at most `fuel` times. -/
def fillBits (n : ℕ) : ℕ → ByteCursor → ByteCursor × Bool
  | 0, c => (c, true)
  | fuel + 1, c =>
      if c.bitsInBuf < n then
        match c.tryReadByte with
        | (c, none) => (c, false)
        | (c, some b) => fillBits n fuel (c.push b)
      else (c, true)

/-- Nothing is returned where a shift is undefined. Every turn of the loop adds bits, so that `n` turns are enough. -/
def tryReadBits (c : ByteCursor) (n : UInt8) : Option (ByteCursor × Option (BitVec 64)) :=
  if 64 < n.toNat then some (c, none)
  else
    match fillBits n.toNat n.toNat c with
    | (c, false) => some (c, none)
    | (c, true) =>
        let c := { c with bitsInBuf := c.bitsInBuf - n.toNat }
        (shiftRight c.bitBuf c.bitsInBuf).map fun word => (c, some (word &&& bitMask n.toNat))

def tryPeekBits (c : ByteCursor) (n : UInt8) : Option (Option (BitVec 64)) :=
  if 64 < n.toNat ∨ c.bitsInBuf < n.toNat then some none
  else (shiftRight c.bitBuf (c.bitsInBuf - n.toNat)).map fun word => some (word &&& bitMask n.toNat)

def skipBits (c : ByteCursor) (n : UInt8) : ByteCursor :=
  if n.toNat ≤ c.bitsInBuf then { c with bitsInBuf := c.bitsInBuf - n.toNat } else { c with bitsInBuf := 0 }

def refillBits (c : ByteCursor) : ByteCursor × Bool :=
  if c.exhausted then (c, false) else (({ c with pos := c.pos + 1 }).push (c.data.getD c.pos 0), true)

/-! ### What is buffered -/

/-- The bits in the buffer, the next one first. -/
def pending (c : ByteCursor) : List Bool := toBits c.bitsInBuf c.bitBuf.toNat

/-- The bytes that a read of `n` bits feeds to the buffer. -/
def fed (c : ByteCursor) (n : ℕ) : ℕ := min ((n - c.bitsInBuf + 7) / 8) (c.size - c.pos)

theorem length_pending (c : ByteCursor) : c.pending.length = c.bitsInBuf := length_toBits _ _

theorem toNat_and_bitMask (word : BitVec 64) (hn : n ≤ 64) : (word &&& bitMask n).toNat = word.toNat % 2 ^ n := by
  have hmask : (bitMask n).toNat = 2 ^ n - 1 := by
    unfold bitMask
    split
    case isTrue h => rw [h, BitVec.toNat_allOnes]
    case isFalse h =>
      have hlt : 2 ^ n < 2 ^ 64 := Nat.pow_lt_pow_right (by omega) (by omega)
      have hone : ((1 : BitVec 64) <<< n).toNat = 2 ^ n := by
        rw [BitVec.toNat_shiftLeft, show (1 : BitVec 64).toNat = 1 from rfl, Nat.one_shiftLeft, Nat.mod_eq_of_lt hlt]
      have hpos := Nat.two_pow_pos n
      rw [BitVec.toNat_sub, hone, show (1 : BitVec 64).toNat = 1 from rfl]
      omega
  rw [BitVec.toNat_and, hmask, Nat.and_two_pow_sub_one_eq_mod]

/-- The word that a read of `n` of the `k` buffered bits returns. -/
theorem toBits_word (word : BitVec 64) {k : ℕ} (hn : n ≤ 64) (hk : n ≤ k) :
    toBits n ((word >>> (k - n)) &&& bitMask n).toNat = (toBits k word.toNat).take n := by
  rw [toNat_and_bitMask _ hn, toBits_mod le_rfl, BitVec.toNat_ushiftRight, toBits_take hk]

theorem pending_push (hc : c.bitsInBuf ≤ 56) (b : UInt8) : (c.push b).pending = c.pending ++ toBits 8 b.toNat := by
  have hb : b.toNat < 2 ^ 64 := b.toNat_lt.trans (by decide)
  have hbits : (c.push b).bitsInBuf = c.bitsInBuf + 8 := Nat.mod_eq_of_lt (by omega)
  have hbuf : (c.push b).bitBuf.toNat = (c.bitBuf.toNat <<< 8 ||| b.toNat) % 2 ^ 64 := by
    rw [push, BitVec.toNat_or, BitVec.toNat_shiftLeft, BitVec.toNat_ofNat, Nat.or_mod_two_pow]
  rw [pending, hbits, hbuf, toBits_mod (by omega), toBits_push b.toNat_lt]
  rfl

theorem tryReadByte_eq (hpos : c.pos < c.size) :
    c.tryReadByte = ({ c with pos := c.pos + 1 }, some (c.data.getD c.pos 0)) := if_neg (Nat.not_le.mpr hpos)

theorem drop_pos (hpos : c.pos < c.size) : c.data.drop c.pos = c.data.getD c.pos 0 :: c.data.drop (c.pos + 1) := by
  rw [List.getD_eq_getElem _ _ hpos]
  exact List.drop_eq_getElem_cons hpos

theorem fillBits_spec (hfuel : n ≤ c.bitsInBuf + fuel) (hpos : c.pos ≤ c.size) (hfits : c.bitsInBuf + 8 * c.fed n ≤ 64) :
    ∃ c' enough, fillBits n fuel c = (c', enough) ∧ c'.data = c.data ∧ c.pos ≤ c'.pos ∧ c'.pos ≤ c.size ∧
      c'.bitsInBuf ≤ 64 ∧ c'.pending = c.pending ++ bytesBits ((c.data.drop c.pos).take (c'.pos - c.pos)) ∧
      (enough = true → n ≤ c'.bitsInBuf) := by
  have hkeep : c.pending = c.pending ++ bytesBits ((c.data.drop c.pos).take (c.pos - c.pos)) := by
    rw [Nat.sub_self, List.take_zero, bytesBits_nil, List.append_nil]
  induction fuel generalizing c with
  | zero => exact ⟨c, true, rfl, rfl, le_rfl, hpos, by omega, hkeep, fun _ => hfuel⟩
  | succ fuel ih =>
      unfold fillBits
      split
      case isFalse hn => exact ⟨c, true, rfl, rfl, le_rfl, hpos, by omega, hkeep, fun _ => Nat.not_lt.mp hn⟩
      case isTrue hn =>
        rcases Nat.lt_or_ge c.pos c.size with hlt | hge
        · have hfed : 1 ≤ c.fed n := by
            unfold fed
            omega
          set c₁ := ({ c with pos := c.pos + 1 } : ByteCursor).push (c.data.getD c.pos 0) with hc₁
          have hpending : c₁.pending = c.pending ++ toBits 8 (c.data.getD c.pos 0).toNat :=
            pending_push (c := { c with pos := c.pos + 1 }) (by show c.bitsInBuf ≤ 56; omega) _
          have hbits : c₁.bitsInBuf = c.bitsInBuf + 8 := Nat.mod_eq_of_lt (by show c.bitsInBuf + 8 < 2 ^ 64; omega)
          have hpos₁ : c₁.pos = c.pos + 1 := rfl
          have hdata₁ : c₁.data = c.data := rfl
          have hsize₁ : c₁.size = c.size := rfl
          have hfed₁ : c₁.fed n + 1 = c.fed n := by
            unfold fed at hfed ⊢
            rw [hbits, hpos₁, hsize₁]
            omega
          have hnil : c₁.pending = c₁.pending ++ bytesBits ((c₁.data.drop c₁.pos).take (c₁.pos - c₁.pos)) := by
            rw [Nat.sub_self, List.take_zero, bytesBits_nil, List.append_nil]
          obtain ⟨c', enough, hfill, hdata, hle, hend, h64, hrest, hn'⟩ :=
            ih (c := c₁) (by omega) (by omega) (by omega) hnil
          rw [hpos₁] at hle
          refine ⟨c', enough, ?_, hdata, by omega, hend, h64, ?_, hn'⟩
          · rw [tryReadByte_eq hlt]
            exact hfill
          · rw [hrest, hpending, List.append_assoc, drop_pos hlt, hdata₁, hpos₁,
              show c'.pos - c.pos = c'.pos - (c.pos + 1) + 1 by omega, List.take_succ_cons, bytesBits_cons]
        · refine ⟨c, false, ?_, rfl, le_rfl, hpos, by omega, hkeep, fun h => absurd h Bool.false_ne_true⟩
          rw [tryReadByte, if_pos hge]

end ByteCursor

end NeForce

/-! ## Runs of the byte cursor

As long as no sum of a position and a count wraps and no bits are shifted out of the buffer, a cursor stays within its
bytes and returns the bits of the bytes that were fed to the bit buffer, in order. -/

namespace NeForce.ByteCursor

/-- The reads of a number of whole bytes. -/
inductive Fixed
  | be16 | be24 | be32 | be64 | le16 | le32 | le64

def Fixed.width : Fixed → ℕ
  | be16 | le16 => 2
  | be24 => 3
  | be32 | le32 => 4
  | be64 | le64 => 8

def tryReadFixed : Fixed → ByteCursor → ByteCursor × Option ℕ
  | .be16 => tryReadBe16
  | .be24 => tryReadBe24
  | .be32 => tryReadBe32
  | .be64 => tryReadBe64
  | .le16 => tryReadLe16
  | .le32 => tryReadLe32
  | .le64 => tryReadLe64

inductive Call
  | readByte
  | peekByte
  | readFixed (fixed : Fixed)
  | readBytes (count : UInt64)
  | skip (count : UInt64)
  | readBits (n : UInt8)
  | peekBits (n : UInt8)
  | skipBits (n : UInt8)
  | refillBits

/-- A run keeps how many bytes each call took, and whether the bit buffer took them, the bits that were returned or
skipped, and the ranges of the bytes that were read or handed out. -/
structure Reading where
  cursor : ByteCursor
  taken : List (Bool × ℕ)
  passed : List Bool
  reads : List (ℕ × ℕ)

def start (data : Bytes) : Reading := ⟨ofBytes data, [], [], []⟩

namespace Reading

def took (s : Reading) (cursor : ByteCursor) (bits : Bool) (count : ℕ) : Reading :=
  { s with cursor := cursor, taken := s.taken ++ [(bits, count)] }

def looked (s : Reading) (first count : ℕ) : Reading := { s with reads := s.reads ++ [(first, count)] }

def pass (s : Reading) (bits : List Bool) : Reading := { s with passed := s.passed ++ bits }

end Reading

/-- What a call does; nothing where it is undefined. -/
def step (s : Reading) : Call → Option Reading
  | .readByte =>
      match s.cursor.tryReadByte with
      | (_, none) => some s
      | (c, some _) => some ((s.took c false 1).looked s.cursor.pos 1)
  | .peekByte =>
      match s.cursor.peekByte with
      | none => some s
      | some _ => some (s.looked s.cursor.pos 1)
  | .readFixed fixed =>
      match tryReadFixed fixed s.cursor with
      | (_, none) => some s
      | (c, some _) => some ((s.took c false fixed.width).looked s.cursor.pos fixed.width)
  | .readBytes count =>
      match s.cursor.tryReadBytes count with
      | (_, none) => some s
      | (c, some (first, length)) => some ((s.took c false length).looked first length)
  | .skip count =>
      match s.cursor.skip count with
      | (_, false) => some s
      | (c, true) => some (s.took c false count.toNat)
  | .readBits n =>
      (s.cursor.tryReadBits n).map fun (c, word) =>
        let s' := (s.took c true (c.pos - s.cursor.pos)).looked s.cursor.pos (c.pos - s.cursor.pos)
        match word with
        | none => s'
        | some word => s'.pass (toBits n.toNat word.toNat)
  | .peekBits n => (s.cursor.tryPeekBits n).map fun _ => s
  | .skipBits n => some ({ s with cursor := s.cursor.skipBits n }.pass (s.cursor.pending.take n.toNat))
  | .refillBits =>
      match s.cursor.refillBits with
      | (_, false) => some s
      | (c, true) => some ((s.took c true 1).looked s.cursor.pos 1)

/-- The bytes that were fed to the bit buffer. -/
def fedBytes : List (Bool × ℕ) → Bytes → Bytes
  | [], _ => []
  | (bits, count) :: taken, data => (if bits then data.take count else []) ++ fedBytes taken (data.drop count)

/-- The bytes are taken one after the other, none is read behind the end, and the bits that were returned or skipped
are the first ones of the bytes that were fed. -/
structure Faithful (data : Bytes) (s : Reading) : Prop where
  data_eq : s.cursor.data = data
  pos_le : s.cursor.pos ≤ data.length
  taken : (s.taken.map Prod.snd).sum = s.cursor.pos
  reads : ∀ r ∈ s.reads, r.1 + r.2 ≤ data.length
  passed : bytesBits (fedBytes s.taken data) = s.passed ++ s.cursor.pending
  peeked : ∀ n word, s.cursor.tryPeekBits n = some (some word) → toBits n.toNat word.toNat = s.cursor.pending.take n.toNat
  bits_le : s.cursor.bitsInBuf ≤ 64

/-- No sum wraps, no bits are shifted out, and no shift is undefined. -/
def Fits (s : Reading) : Call → Prop
  | .readByte | .peekByte | .skipBits _ => True
  | .readFixed fixed => s.cursor.pos + fixed.width < 2 ^ 64
  | .readBytes count | .skip count => s.cursor.pos + count.toNat < 2 ^ 64
  | .readBits n => 64 < n.toNat ∨
      s.cursor.bitsInBuf + 8 * s.cursor.fed n.toNat ≤ 64 ∧ (n.toNat = 0 → s.cursor.bitsInBuf < 64)
  | .peekBits n => n.toNat = 0 → s.cursor.bitsInBuf < 64
  | .refillBits => s.cursor.pos < s.cursor.size → s.cursor.bitsInBuf ≤ 56

instance (s : Reading) : (call : Call) → Decidable (Fits s call)
  | .readByte | .peekByte | .skipBits _ => inferInstanceAs (Decidable True)
  | .readFixed fixed => inferInstanceAs (Decidable (s.cursor.pos + fixed.width < 2 ^ 64))
  | .readBytes count | .skip count => inferInstanceAs (Decidable (s.cursor.pos + count.toNat < 2 ^ 64))
  | .readBits n => inferInstanceAs (Decidable (64 < n.toNat ∨
      s.cursor.bitsInBuf + 8 * s.cursor.fed n.toNat ≤ 64 ∧ (n.toNat = 0 → s.cursor.bitsInBuf < 64)))
  | .peekBits n => inferInstanceAs (Decidable (n.toNat = 0 → s.cursor.bitsInBuf < 64))
  | .refillBits => inferInstanceAs (Decidable (s.cursor.pos < s.cursor.size → s.cursor.bitsInBuf ≤ 56))

variable {c c' : ByteCursor} {s s' : Reading} {data : Bytes} {taken : List (Bool × ℕ)} {bits : Bool} {count n : ℕ} {call : Call}

theorem tryReadFixed_eq (fixed : Fixed) : ∃ read, tryReadFixed fixed = tryReadNumber read fixed.width := by
  cases fixed <;> exact ⟨_, rfl⟩

theorem fedBytes_append (taken : List (Bool × ℕ)) (bits : Bool) (count : ℕ) (data : Bytes) :
    fedBytes (taken ++ [(bits, count)]) data =
      fedBytes taken data ++ if bits then (data.drop (taken.map Prod.snd).sum).take count else [] := by
  induction taken generalizing data with
  | nil => simp [fedBytes]
  | cons piece taken ih =>
      obtain ⟨bits', count'⟩ := piece
      rw [List.cons_append, fedBytes, fedBytes, ih, List.append_assoc, List.drop_drop, List.map_cons, List.sum_cons]

/-- A peek shows the next bits. -/
theorem tryPeekBits_eq (n : UInt8) {word : BitVec 64} (hpeek : c.tryPeekBits n = some (some word)) :
    toBits n.toNat word.toNat = c.pending.take n.toNat := by
  unfold tryPeekBits at hpeek
  split at hpeek
  case isTrue => cases hpeek
  case isFalse h =>
    rw [not_or, Nat.not_lt, Nat.not_lt] at h
    unfold shiftRight at hpeek
    split at hpeek
    case isFalse => cases hpeek
    case isTrue =>
      obtain rfl := Option.some.inj (Option.some.inj hpeek)
      exact toBits_word _ h.1 h.2

theorem faithful_start (data : Bytes) : Faithful data (start data) :=
  ⟨rfl, Nat.zero_le _, rfl, fun _ hr => absurd hr List.not_mem_nil, rfl, fun n _ => tryPeekBits_eq n, Nat.zero_le _⟩

namespace Faithful

/-- `count` more bytes that the bit buffer does not take. -/
theorem advance (h : Faithful data s) (hend : s.cursor.pos + count ≤ data.length) (hbits : c.bitsInBuf = s.cursor.bitsInBuf)
    (hbuf : c.bitBuf = s.cursor.bitBuf) (hdata : c.data = data) (hpos : c.pos = s.cursor.pos + count) :
    Faithful data (s.took c false count) where
  data_eq := hdata
  pos_le := hpos.trans_le hend
  taken := by
    show ((s.taken ++ [(false, count)]).map Prod.snd).sum = c.pos
    rw [List.map_append, List.sum_append, h.taken, hpos]
    simp
  reads := h.reads
  passed := by
    show bytesBits (fedBytes (s.taken ++ [(false, count)]) data) = s.passed ++ c.pending
    have hpending : c.pending = s.cursor.pending := by rw [pending, pending, hbits, hbuf]
    rw [fedBytes_append, if_neg Bool.false_ne_true, List.append_nil, hpending]
    exact h.passed
  peeked := fun n _ => tryPeekBits_eq n
  bits_le := hbits.trans_le h.bits_le

/-- `count` more bytes that the bit buffer takes. -/
theorem feed (h : Faithful data s) (hend : s.cursor.pos + count ≤ data.length) (hdata : c.data = data)
    (hpos : c.pos = s.cursor.pos + count) (hbits : c.bitsInBuf ≤ 64)
    (hpending : c.pending = s.cursor.pending ++ bytesBits ((data.drop s.cursor.pos).take count)) :
    Faithful data (s.took c true count) where
  data_eq := hdata
  pos_le := hpos.trans_le hend
  taken := by
    show ((s.taken ++ [(true, count)]).map Prod.snd).sum = c.pos
    rw [List.map_append, List.sum_append, h.taken, hpos]
    simp
  reads := h.reads
  passed := by
    show bytesBits (fedBytes (s.taken ++ [(true, count)]) data) = s.passed ++ c.pending
    rw [fedBytes_append, if_pos rfl, h.taken, bytesBits_append, h.passed, hpending, List.append_assoc]
  peeked := fun n _ => tryPeekBits_eq n
  bits_le := hbits

theorem looked (h : Faithful data s) {first : ℕ} (hend : first + count ≤ data.length) :
    Faithful data (s.looked first count) where
  data_eq := h.data_eq
  pos_le := h.pos_le
  taken := h.taken
  reads := by
    intro r hr
    rcases List.mem_append.mp hr with hr | hr
    · exact h.reads r hr
    · rw [List.mem_singleton.mp hr]
      exact hend
  passed := h.passed
  peeked := h.peeked
  bits_le := h.bits_le

/-- The next `n` bits leave the buffer. -/
theorem pass (h : Faithful data s) (hn : n ≤ s.cursor.bitsInBuf) :
    Faithful data ({ s with cursor := { s.cursor with bitsInBuf :=
    s.cursor.bitsInBuf - n } }.pass (s.cursor.pending.take n)) where
  data_eq := h.data_eq
  pos_le := h.pos_le
  taken := h.taken
  reads := h.reads
  passed := by
    show _ = (s.passed ++ s.cursor.pending.take n) ++ toBits (s.cursor.bitsInBuf - n) s.cursor.bitBuf.toNat
    rw [← toBits_drop hn, List.append_assoc]
    exact h.passed.trans (congrArg _ (List.take_append_drop n _).symm)
  peeked := fun n _ => tryPeekBits_eq n
  bits_le := (Nat.sub_le _ _).trans h.bits_le

end Faithful

/-- A read of whole bytes that is refused or does not wrap. -/
theorem lacks_eq_false (hc : c.pos + count < 2 ^ 64) (hlacks : c.lacks count = false) : c.pos + count ≤ c.size := by
  rw [lacks, decide_eq_false_iff_not, Nat.mod_eq_of_lt hc] at hlacks
  exact Nat.not_lt.mp hlacks

/-- A read of `n` bits within its condition. -/
theorem tryReadBits_spec {n : UInt8} (hpos : c.pos ≤ c.size) (h64 : c.bitsInBuf ≤ 64)
    (hfits : 64 < n.toNat ∨ c.bitsInBuf + 8 * c.fed n.toNat ≤ 64 ∧ (n.toNat = 0 → c.bitsInBuf < 64)) :
    ∃ c₁, c₁.data = c.data ∧ c.pos ≤ c₁.pos ∧ c₁.pos ≤ c.size ∧ c₁.bitsInBuf ≤ 64 ∧
      c₁.pending = c.pending ++ bytesBits ((c.data.drop c.pos).take (c₁.pos - c.pos)) ∧
      (c.tryReadBits n = some (c₁, none) ∨
        n.toNat ≤ c₁.bitsInBuf ∧ ∃ word, toBits n.toNat word.toNat = c₁.pending.take n.toNat ∧
          c.tryReadBits n = some ({ c₁ with bitsInBuf := c₁.bitsInBuf - n.toNat }, some word)) := by
  unfold tryReadBits
  rcases hfits with hbig | ⟨hfits, hzero⟩
  · rw [if_pos hbig]
    refine ⟨c, rfl, le_rfl, hpos, h64, ?_, .inl rfl⟩
    rw [Nat.sub_self, List.take_zero, bytesBits_nil, List.append_nil]
  · obtain ⟨c₁, enough, hfill, hdata, hle, hend, hbits, hpending, hn⟩ :=
      fillBits_spec (Nat.le_add_left n.toNat c.bitsInBuf) hpos hfits
    split
    case isTrue hbig =>
      refine ⟨c, rfl, le_rfl, hpos, h64, ?_, .inl rfl⟩
      rw [Nat.sub_self, List.take_zero, bytesBits_nil, List.append_nil]
    case isFalse hsmall =>
      rw [hfill]
      refine ⟨c₁, hdata, hle, hend, hbits, hpending, ?_⟩
      cases enough with
      | false => exact .inl rfl
      | true =>
          have hle' := hn rfl
          -- the shift is by fewer than 64 bits: some bits are read, or the loop has not fed any
          have hshift : c₁.bitsInBuf - n.toNat < 64 := by
            rcases Nat.eq_zero_or_pos n.toNat with h0 | hpos'
            · rw [h0] at hfill
              obtain rfl : c = c₁ := congrArg Prod.fst hfill
              have := hzero h0
              omega
            · omega
          refine .inr ⟨hle', (c₁.bitBuf >>> (c₁.bitsInBuf - n.toNat)) &&& bitMask n.toNat,
            toBits_word _ (Nat.not_lt.mp hsmall) hle', ?_⟩
          dsimp only
          rw [shiftRight, if_pos hshift]
          rfl

/-- One call within its condition is defined and keeps the stream faithful. -/
theorem step_faithful (h : Faithful data s) (hfits : Fits s call) : ∃ s', step s call = some s' ∧ Faithful data s' := by
  have hsize : s.cursor.size = data.length := congrArg List.length h.data_eq
  cases call with
  | readByte =>
      rw [step, tryReadByte]
      split_ifs with hend
      · exact ⟨s, rfl, h⟩
      · have hlt : s.cursor.pos + 1 ≤ data.length := by omega
        exact ⟨_, rfl, (h.advance (c := { s.cursor with pos := s.cursor.pos + 1 }) hlt rfl rfl h.data_eq rfl).looked hlt⟩
  | peekByte =>
      rw [step, peekByte]
      split_ifs with hend
      · exact ⟨s, rfl, h⟩
      · exact ⟨_, rfl, h.looked (by omega)⟩
  | readFixed fixed =>
      obtain ⟨read, hread⟩ := tryReadFixed_eq fixed
      rw [step, hread, tryReadNumber]
      cases hlacks : s.cursor.lacks fixed.width with
      | true => exact ⟨s, rfl, h⟩
      | false =>
          have hle := (lacks_eq_false hfits hlacks).trans_eq hsize
          exact ⟨_, rfl, (h.advance (c :=
            s.cursor.advance fixed.width) hle rfl rfl h.data_eq (Nat.mod_eq_of_lt hfits)).looked hle⟩
  | readBytes count =>
      rw [step, tryReadBytes]
      cases hlacks : s.cursor.lacks count.toNat with
      | true => exact ⟨s, rfl, h⟩
      | false =>
          have hle := (lacks_eq_false hfits hlacks).trans_eq hsize
          exact ⟨_, rfl, (h.advance (c :=
            s.cursor.advance count.toNat) hle rfl rfl h.data_eq (Nat.mod_eq_of_lt hfits)).looked hle⟩
  | skip count =>
      rw [step, skip]
      cases hlacks : s.cursor.lacks count.toNat with
      | true => exact ⟨s, rfl, h⟩
      | false =>
          have hle := (lacks_eq_false hfits hlacks).trans_eq hsize
          exact ⟨_, rfl, h.advance (c := s.cursor.advance count.toNat) hle rfl rfl h.data_eq (Nat.mod_eq_of_lt hfits)⟩
  | readBits n =>
      obtain ⟨c₁, hdata, hle, hend, hbits, hpending, hread⟩ :=
        tryReadBits_spec (h.pos_le.trans_eq hsize.symm) h.bits_le hfits
      rw [h.data_eq] at hdata hpending
      have hend' : s.cursor.pos + (c₁.pos - s.cursor.pos) ≤ data.length := by omega
      have hfed := h.feed hend' hdata (by omega) hbits hpending
      rw [step]
      rcases hread with hnone | ⟨hn, word, hword, hsome⟩
      · rw [hnone]
        exact ⟨_, rfl, hfed.looked hend'⟩
      · rw [hsome]
        refine ⟨_, rfl, ?_⟩
        dsimp only
        rw [hword]
        exact (hfed.looked hend').pass hn
  | peekBits n =>
      have hshift : ¬ (64 < n.toNat ∨ s.cursor.bitsInBuf < n.toNat) → s.cursor.bitsInBuf - n.toNat < 64 := by
        intro hn
        have hzero : n.toNat = 0 → s.cursor.bitsInBuf < 64 := hfits
        have := h.bits_le
        omega
      rw [step, tryPeekBits]
      split_ifs with hn
      · exact ⟨s, rfl, h⟩
      · rw [shiftRight, if_pos (hshift hn)]
        exact ⟨s, rfl, h⟩
  | skipBits n =>
      refine ⟨_, rfl, ?_⟩
      unfold skipBits
      split_ifs with hn
      · exact h.pass hn
      · have hall : s.cursor.pending.take n.toNat = s.cursor.pending.take s.cursor.bitsInBuf := by
          rw [List.take_of_length_le (by rw [length_pending]; omega),
            List.take_of_length_le (by rw [length_pending])]
        have hpass := h.pass (n := s.cursor.bitsInBuf) le_rfl
        rw [Nat.sub_self] at hpass
        rwa [hall]
  | refillBits =>
      rw [step, refillBits, exhausted]
      cases hend : decide (s.cursor.size ≤ s.cursor.pos) with
      | true => exact ⟨s, rfl, h⟩
      | false =>
          have hlt : s.cursor.pos < s.cursor.size := Nat.not_le.mp (of_decide_eq_false hend)
          have h56 : s.cursor.bitsInBuf ≤ 56 := hfits hlt
          have hle : s.cursor.pos + 1 ≤ data.length := by omega
          have hbits : (s.cursor.bitsInBuf + 8) % 2 ^ 64 ≤ 64 := by omega
          have hpending := pending_push (c := { s.cursor with pos := s.cursor.pos + 1 }) h56
            (s.cursor.data.getD s.cursor.pos 0)
          refine ⟨_, rfl, (h.feed hle ?_ rfl hbits ?_).looked hle⟩
          · exact h.data_eq
          · rw [← h.data_eq, drop_pos hlt, List.take_succ_cons, List.take_zero, bytesBits_cons, bytesBits_nil,
              List.append_nil]
            exact hpending

/-- In every run whose calls meet their conditions the cursor is a faithful stream of the bytes and bits, and the next
call that meets its condition is defined. -/
theorem stream_faithful {calls : List Call} (hrun : Run (Guarded Fits fun s call s' => step s call = some s')
    (start data) calls s) :
    Faithful data s ∧ ∀ call, Fits s call → (step s call).isSome := by
  have hs : Faithful data s := by
    refine hrun.invariant (faithful_start data) ?_
    rintro s₁ call s₂ h ⟨hfits, hstep⟩
    obtain ⟨s₃, hstep', h₃⟩ := step_faithful h hfits
    obtain rfl : s₃ = s₂ := Option.some.inj (hstep'.symm.trans hstep)
    exact h₃
  refine ⟨hs, fun call hfits => ?_⟩
  obtain ⟨s', hstep, -⟩ := step_faithful hs hfits
  rw [hstep]
  rfl

theorem stream_faithful_header : ∃ s, Faithful [1, 2, 3, 0xA5, 0xFF] s ∧ s.passed = [true, false, true] := by
  have hrun : [Call.readFixed .be16, .skip 1, .readBits 3].foldlM
      (Run.guardExec Fits fun s call => step s call) (start [1, 2, 3, 0xA5, 0xFF]) = some
        ⟨⟨[1, 2, 3, 0xA5, 0xFF], 4, 0xA5, 5⟩, [(false, 2), (false, 1), (true, 1)], [true, false, true], [(0, 2), (3, 1)]⟩ := by
    rfl
  exact ⟨_, (stream_faithful (Run.of_guardExec hrun)).1, rfl⟩

/-- A read of 64 bits behind one bit loses the seven bits that were left, and a count that wraps hands out more bytes
than there are. -/
theorem stream_loses_bits :
    (∃ s, [Call.readBits 1, .readBits 64].foldlM step (start (List.replicate 9 0xFF)) = some s ∧
      ¬ Faithful (List.replicate 9 0xFF) s) ∧
    ∃ s, [Call.readByte, .readBytes 0xFFFFFFFFFFFFFFFF].foldlM step (start [1, 2]) = some s ∧ ¬ Faithful [1, 2] s := by
  refine ⟨⟨_, rfl, fun h => absurd h.passed ?_⟩, ⟨_, rfl, fun h => absurd h.reads ?_⟩⟩
  · decide
  · decide

end NeForce.ByteCursor
