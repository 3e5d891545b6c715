import ElioP2P.Library.Bytes
import Mathlib.Data.List.Induction
import Mathlib.Tactic.Common

/-!
# Length-prefixed binary formats

Integers in network order, decoders that walk a byte string with an offset, and
layouts that say which fields a format has.

A decoder reads fixed-width fields without asking how many bytes are left, as a
bare `memcpy` does, and checks the extent of a text before it takes it.  Hence
three outcomes: a value, an orderly rejection, or a read past the end.
`Layout.walk` says which of the three it is from the layout alone, and
`Consumes` says what a decoder makes of the output of an encoder.
-/

namespace ElioP2P.Library

/-! ## Integers -/

/-- The `width` low bytes of `n`, most significant first. -/
def bigEndian : Nat → Nat → Bytes
  | 0, _ => []
  | width + 1, n => bigEndian width (n / 256) ++ [UInt8.ofNat n]

def bigEndianValue (bytes : Bytes) : Nat := bytes.foldl (fun n b => 256 * n + b.toNat) 0

/-- The `width` low bytes of `n`, least significant first: the memory of a
little-endian host. -/
def littleEndian (width n : Nat) : Bytes := (bigEndian width n).reverse

def littleEndianValue (bytes : Bytes) : Nat := bigEndianValue bytes.reverse

@[simp] theorem length_bigEndian (width n : Nat) : (bigEndian width n).length = width := by
  induction width generalizing n with
  | zero => rfl
  | succ width ih => simp [bigEndian, ih]

@[simp] theorem length_littleEndian (width n : Nat) : (littleEndian width n).length = width := by
  simp [littleEndian]

theorem bigEndianValue_append_singleton (bytes : Bytes) (b : UInt8) :
    bigEndianValue (bytes ++ [b]) = 256 * bigEndianValue bytes + b.toNat := by
  simp [bigEndianValue]

theorem bigEndianValue_bigEndian {width n : Nat} (h : n < 256 ^ width) :
    bigEndianValue (bigEndian width n) = n := by
  induction width generalizing n with
  | zero =>
      simp only [Nat.pow_zero, Nat.lt_one_iff] at h
      rw [h]
      rfl
  | succ width ih =>
      have hdiv : n / 256 < 256 ^ width := by
        rw [Nat.div_lt_iff_lt_mul (by decide)]
        rwa [Nat.pow_succ] at h
      rw [bigEndian, bigEndianValue_append_singleton, ih hdiv, UInt8.toNat_ofNat']
      omega

theorem littleEndianValue_littleEndian {width n : Nat} (h : n < 256 ^ width) :
    littleEndianValue (littleEndian width n) = n := by
  rw [littleEndianValue, littleEndian, List.reverse_reverse, bigEndianValue_bigEndian h]

theorem bigEndianValue_lt (bytes : Bytes) : bigEndianValue bytes < 256 ^ bytes.length := by
  induction bytes using List.reverseRecOn with
  | nil => decide
  | append_singleton bytes b ih =>
      have hb := b.toNat_lt
      rw [bigEndianValue_append_singleton, List.length_append, List.length_singleton,
        Nat.pow_succ]
      omega

theorem bigEndian_bigEndianValue (bytes : Bytes) :
    bigEndian bytes.length (bigEndianValue bytes) = bytes := by
  induction bytes using List.reverseRecOn with
  | nil => rfl
  | append_singleton bytes b ih =>
      have hb := b.toNat_lt
      rw [List.length_append, List.length_singleton, bigEndian, bigEndianValue_append_singleton]
      congr 1
      · rw [show (256 * bigEndianValue bytes + b.toNat) / 256 = bigEndianValue bytes by omega, ih]
      · rw [Nat.mul_comm]
        simp

/-! ## Encoders -/

def writeUInt16 (n : UInt16) : Bytes := bigEndian 2 n.toNat

def writeUInt32 (n : UInt32) : Bytes := bigEndian 4 n.toNat

def writeUInt64 (n : UInt64) : Bytes := bigEndian 8 n.toNat

/-- A 32-bit length, truncated if need be, and the bytes. -/
def writeString (text : Bytes) : Bytes := writeUInt32 (UInt32.ofNat text.length) ++ text

/-- A 32-bit count, truncated if need be, and the items. -/
def writeCounted {α : Type} (write : α → Bytes) (items : List α) : Bytes :=
  writeUInt32 (UInt32.ofNat items.length) ++ items.flatMap write

theorem length_writeString (text : Bytes) : (writeString text).length = 4 + text.length := by
  rw [writeString, List.length_append, writeUInt32, length_bigEndian]

theorem length_writeCounted {α : Type} (write : α → Bytes) (items : List α) :
    (writeCounted write items).length = 4 + (items.map fun item => (write item).length).sum := by
  rw [writeCounted, List.length_append, writeUInt32, length_bigEndian, List.length_flatMap]

/-! ## Decoders -/

inductive Outcome (α : Type) where
  | ok (value : α)
  | rejected
  | outOfBounds
  deriving DecidableEq

/-- A decoder gets the whole input and an offset and returns the next offset. -/
def Decoder (α : Type) := Bytes → Nat → Outcome (α × Nat)

namespace Decoder

variable {α β : Type}

instance : Monad Decoder where
  pure a := fun _ offset => .ok (a, offset)
  bind p q := fun data offset =>
    match p data offset with
    | .ok (a, offset) => q a data offset
    | .rejected => .rejected
    | .outOfBounds => .outOfBounds

def reject : Decoder α := fun _ _ => .rejected

/-- Copy `width` bytes from the current offset, wherever that is, and decode
them with `f`. -/
def readFixed (width : Nat) (f : Bytes → α) : Decoder α := fun data offset =>
  if offset + width ≤ data.length then .ok (f ((data.drop offset).take width), offset + width)
  else .outOfBounds

/-- `if (offset + length > size) return nullopt;`, then a substring. -/
def readText (length : Nat) : Decoder Bytes := fun data offset =>
  if data.length < offset + length then .rejected
  else .ok ((data.drop offset).take length, offset + length)

def readUInt16 : Decoder UInt16 := readFixed 2 fun bytes => UInt16.ofNat (bigEndianValue bytes)

def readUInt32 : Decoder UInt32 := readFixed 4 fun bytes => UInt32.ofNat (bigEndianValue bytes)

def readUInt64 : Decoder UInt64 := readFixed 8 fun bytes => UInt64.ofNat (bigEndianValue bytes)

def readString : Decoder Bytes := do
  let length ← readUInt32
  readText length.toNat

/-- `for (i = 0; i < count; ++i)` over a body that updates an accumulator. -/
def repeatRead (body : α → Decoder α) : Nat → α → Decoder α
  | 0, acc => pure acc
  | count + 1, acc => do
      let acc ← body acc
      repeatRead body count acc

/-- A 32-bit count and that many runs of the body. -/
def readCounted (body : α → Decoder α) (acc : α) : Decoder α := do
  let count ← readUInt32
  repeatRead body count.toNat acc

end Decoder

/-! ## Layouts -/

inductive Layout where
  | done
  | fixed (width : Nat) (next : Layout)
  | text (next : Layout)
  | counted (body next : Layout)

/-- How far a byte string gets along a layout: through all of it with `rest`
left over, or it ends in a fixed-width field (a length or count prefix
included), or inside a text. -/
inductive Walk where
  | complete (rest : Bytes)
  | endsInFixed
  | endsInText
  deriving DecidableEq

namespace Walk

def bind (w : Walk) (f : Bytes → Walk) : Walk :=
  match w with
  | .complete rest => f rest
  | .endsInFixed => .endsInFixed
  | .endsInText => .endsInText

def times (f : Bytes → Walk) : Nat → Bytes → Walk
  | 0, bytes => .complete bytes
  | n + 1, bytes => (f bytes).bind (times f n)

end Walk

namespace Layout

def walk : Layout → Bytes → Walk
  | .done, bytes => .complete bytes
  | .fixed width next, bytes =>
      if bytes.length < width then .endsInFixed else next.walk (bytes.drop width)
  | .text next, bytes =>
      if bytes.length < 4 then .endsInFixed
      else
        let length := bigEndianValue (bytes.take 4)
        let bytes := bytes.drop 4
        if bytes.length < length then .endsInText else next.walk (bytes.drop length)
  | .counted body next, bytes =>
      if bytes.length < 4 then .endsInFixed
      else
        (Walk.times body.walk (bigEndianValue (bytes.take 4)) (bytes.drop 4)).bind next.walk

theorem times_append {f : Bytes → Walk} {more : Bytes}
    (hf : ∀ bytes rest, f bytes = .complete rest → f (bytes ++ more) = .complete (rest ++ more))
    {n : Nat} {bytes rest : Bytes} (h : Walk.times f n bytes = .complete rest) :
    Walk.times f n (bytes ++ more) = .complete (rest ++ more) := by
  induction n generalizing bytes with
  | zero =>
      cases h
      rfl
  | succ n ih =>
      unfold Walk.times at h ⊢
      cases hstep : f bytes with
      | complete middle =>
          rw [hstep] at h
          rw [hf bytes middle hstep]
          exact ih h
      | endsInFixed =>
          rw [hstep] at h
          cases h
      | endsInText =>
          rw [hstep] at h
          cases h

theorem walk_append {L : Layout} {bytes rest : Bytes} (more : Bytes)
    (h : L.walk bytes = .complete rest) : L.walk (bytes ++ more) = .complete (rest ++ more) := by
  induction L generalizing bytes rest with
  | done =>
      cases h
      rfl
  | fixed width next ih =>
      unfold walk at h ⊢
      split at h
      · cases h
      · rename_i hlength
        rw [if_neg (by simp; omega), List.drop_append_of_le_length (by omega)]
        exact ih h
  | text next ih =>
      unfold walk at h ⊢
      split at h
      · cases h
      · rename_i hlength
        rw [if_neg (by simp; omega), List.take_append_of_le_length (by omega),
          List.drop_append_of_le_length (by omega)]
        simp only at h ⊢
        split at h
        · cases h
        · rename_i htext
          rw [if_neg (by simp at htext ⊢; omega), List.drop_append_of_le_length (by omega)]
          exact ih h
  | counted body next ihBody ihNext =>
      unfold walk at h ⊢
      split at h
      · cases h
      · rename_i hlength
        rw [if_neg (by simp; omega), List.take_append_of_le_length (by omega),
          List.drop_append_of_le_length (by omega)]
        cases htimes : Walk.times body.walk (bigEndianValue (bytes.take 4)) (bytes.drop 4) with
        | complete middle =>
            rw [htimes] at h
            rw [times_append (fun _ _ => ihBody) htimes]
            exact ihNext h
        | endsInFixed =>
            rw [htimes] at h
            cases h
        | endsInText =>
            rw [htimes] at h
            cases h

end Layout

namespace Decoder

variable {α β : Type}

theorem bind_apply (p : Decoder α) (q : α → Decoder β) (data : Bytes) (offset : Nat) :
    (p >>= q) data offset =
      match p data offset with
      | .ok (a, offset) => q a data offset
      | .rejected => .rejected
      | .outOfBounds => .outOfBounds := rfl

/-! ## What a layout says about a decoder -/

/-- The layout alone tells which outcome the decoder has, and where it stops. -/
def Follows (p : Decoder α) (L : Layout) : Prop :=
  ∀ data offset, offset ≤ data.length →
    match L.walk (data.drop offset) with
    | .complete rest =>
        ∃ a offset', p data offset = .ok (a, offset') ∧ offset' ≤ data.length ∧
          data.drop offset' = rest
    | .endsInFixed => p data offset = .outOfBounds
    | .endsInText => p data offset = .rejected

theorem follows_pure (a : α) : Follows (pure a) .done :=
  fun _ offset hoffset => ⟨a, offset, rfl, hoffset, rfl⟩

theorem follows_continue {p : Decoder α} {q : α → Decoder β} {L : Layout} {data : Bytes}
    {offset offset' : Nat} {a : α} (hq : Follows (q a) L)
    (hp : p data offset = .ok (a, offset')) (hoffset : offset' ≤ data.length) :
    match L.walk (data.drop offset') with
    | .complete rest =>
        ∃ b offset'', (p >>= q) data offset = .ok (b, offset'') ∧ offset'' ≤ data.length ∧
          data.drop offset'' = rest
    | .endsInFixed => (p >>= q) data offset = .outOfBounds
    | .endsInText => (p >>= q) data offset = .rejected := by
  have h := hq data offset' hoffset
  simp only [bind_apply, hp]
  exact h

theorem follows_fixed {width : Nat} {f : Bytes → α} {q : α → Decoder β} {L : Layout}
    (hq : ∀ a, Follows (q a) L) : Follows (readFixed width f >>= q) (.fixed width L) := by
  intro data offset hoffset
  simp only [Layout.walk, List.length_drop]
  by_cases hfits : offset + width ≤ data.length
  · rw [if_neg (by omega), List.drop_drop]
    exact follows_continue (hq _) (if_pos hfits) hfits
  · rw [if_pos (by omega)]
    simp only [bind_apply, readFixed, if_neg hfits]

theorem toNat_ofNat_bigEndianValue_take (bytes : Bytes) :
    (UInt32.ofNat (bigEndianValue (bytes.take 4))).toNat = bigEndianValue (bytes.take 4) := by
  have hlt := bigEndianValue_lt (bytes.take 4)
  have hpow : 256 ^ (bytes.take 4).length ≤ 256 ^ 4 :=
    Nat.pow_le_pow_right (by decide) (List.length_take_le 4 bytes)
  rw [UInt32.toNat_ofNat']
  exact Nat.mod_eq_of_lt (by omega)

theorem readUInt32_of_le {data : Bytes} {offset : Nat} (h : offset + 4 ≤ data.length) :
    readUInt32 data offset =
      .ok (UInt32.ofNat (bigEndianValue ((data.drop offset).take 4)), offset + 4) :=
  if_pos h

theorem readUInt32_of_lt {data : Bytes} {offset : Nat} (h : data.length < offset + 4) :
    readUInt32 data offset = .outOfBounds :=
  if_neg (by omega)

theorem follows_string {q : Bytes → Decoder β} {L : Layout} (hq : ∀ a, Follows (q a) L) :
    Follows (readString >>= q) (.text L) := by
  intro data offset hoffset
  simp only [Layout.walk, List.length_drop]
  by_cases hfront : offset + 4 ≤ data.length
  · rw [if_neg (by omega), List.drop_drop]
    have hread : readString data offset =
        readText (bigEndianValue ((data.drop offset).take 4)) data (offset + 4) := by
      simp only [readString, bind_apply, readUInt32_of_le hfront]
      rw [toNat_ofNat_bigEndianValue_take]
    by_cases htext : data.length < offset + 4 + bigEndianValue ((data.drop offset).take 4)
    · rw [if_pos (by omega)]
      simp only [bind_apply, hread, readText, if_pos htext]
    · rw [if_neg (by omega), List.drop_drop, ← Nat.add_assoc]
      exact follows_continue (hq _) (hread.trans (if_neg htext)) (by omega)
  · rw [if_pos (by omega)]
    simp only [bind_apply, readString, readUInt32_of_lt (by omega : data.length < offset + 4)]

theorem follows_repeat {body : α → Decoder α} {B : Layout} (hbody : ∀ a, Follows (body a) B)
    (count : Nat) (acc : α) {data : Bytes} {offset : Nat} (hoffset : offset ≤ data.length) :
    match Walk.times B.walk count (data.drop offset) with
    | .complete rest =>
        ∃ a offset', repeatRead body count acc data offset = .ok (a, offset') ∧
          offset' ≤ data.length ∧ data.drop offset' = rest
    | .endsInFixed => repeatRead body count acc data offset = .outOfBounds
    | .endsInText => repeatRead body count acc data offset = .rejected := by
  induction count generalizing acc offset with
  | zero => exact ⟨acc, offset, rfl, hoffset, rfl⟩
  | succ count ih =>
      have hstep := hbody acc data offset hoffset
      unfold Walk.times
      cases hwalk : B.walk (data.drop offset) with
      | complete rest =>
          rw [hwalk] at hstep
          obtain ⟨a, offset', hread, hle, rfl⟩ := hstep
          have hrest := ih a hle
          simp only [repeatRead, bind_apply, hread, Walk.bind]
          exact hrest
      | endsInFixed =>
          rw [hwalk] at hstep
          simp only [repeatRead, bind_apply, hstep, Walk.bind]
      | endsInText =>
          rw [hwalk] at hstep
          simp only [repeatRead, bind_apply, hstep, Walk.bind]

theorem follows_counted {body : α → Decoder α} {acc : α} {q : α → Decoder β} {B L : Layout}
    (hbody : ∀ a, Follows (body a) B) (hq : ∀ a, Follows (q a) L) :
    Follows (readCounted body acc >>= q) (.counted B L) := by
  intro data offset hoffset
  simp only [Layout.walk, List.length_drop]
  by_cases hfront : offset + 4 ≤ data.length
  · rw [if_neg (by omega), List.drop_drop]
    have hread : readCounted body acc data offset =
        repeatRead body (bigEndianValue ((data.drop offset).take 4)) acc data (offset + 4) := by
      simp only [readCounted, bind_apply, readUInt32_of_le hfront]
      rw [toNat_ofNat_bigEndianValue_take]
    have hrepeat := follows_repeat hbody (bigEndianValue ((data.drop offset).take 4)) acc hfront
    cases hwalk : Walk.times B.walk (bigEndianValue ((data.drop offset).take 4))
        (data.drop (offset + 4)) with
    | complete rest =>
        rw [hwalk] at hrepeat
        obtain ⟨a, offset', hloop, hle, rfl⟩ := hrepeat
        exact follows_continue (hq _) (hread.trans hloop) hle
    | endsInFixed =>
        rw [hwalk] at hrepeat
        simp only [Walk.bind, bind_apply, hread, hrepeat]
    | endsInText =>
        rw [hwalk] at hrepeat
        simp only [Walk.bind, bind_apply, hread, hrepeat]
  · rw [if_pos (by omega)]
    simp only [bind_apply, readCounted, readUInt32_of_lt (by omega : data.length < offset + 4)]

/-! ## Reading back what was written -/

/-- Wherever `bytes` stand, the decoder takes exactly them and returns `a`. -/
def Consumes (p : Decoder α) (bytes : Bytes) (a : α) : Prop :=
  ∀ before after, p (before ++ (bytes ++ after)) before.length =
    .ok (a, before.length + bytes.length)

theorem consumes_pure (a : α) : Consumes (pure a) [] a := fun _ _ => rfl

theorem consumes_bind {p : Decoder α} {q : α → Decoder β} {first second : Bytes} {a : α} {b : β}
    (hp : Consumes p first a) (hq : Consumes (q a) second b) :
    Consumes (p >>= q) (first ++ second) b := by
  intro before after
  have hfirst := hp before (second ++ after)
  have hsecond := hq (before ++ first) after
  simp only [List.append_assoc, List.length_append] at hfirst hsecond ⊢
  simp only [bind_apply, hfirst]
  rw [hsecond, Nat.add_assoc]

theorem consumes_map {p : Decoder α} {bytes : Bytes} {a : α} (hp : Consumes p bytes a)
    (f : α → β) : Consumes (p >>= fun a => pure (f a)) bytes (f a) := by
  have h : Consumes (p >>= fun a => pure (f a)) (bytes ++ []) (f a) :=
    consumes_bind hp (consumes_pure (f a))
  rwa [List.append_nil] at h

theorem take_drop_middle (before bytes after : Bytes) :
    ((before ++ (bytes ++ after)).drop before.length).take bytes.length = bytes := by
  simp

theorem consumes_fixed {width : Nat} (f : Bytes → α) {bytes : Bytes}
    (h : bytes.length = width) : Consumes (readFixed width f) bytes (f bytes) := by
  subst h
  intro before after
  unfold readFixed
  rw [if_pos (by simp), take_drop_middle]

theorem consumes_text (text : Bytes) : Consumes (readText text.length) text text := by
  intro before after
  unfold readText
  rw [if_neg (by simp), take_drop_middle]

theorem consumes_uint16 (n : UInt16) : Consumes readUInt16 (writeUInt16 n) n := by
  have h : Consumes readUInt16 (writeUInt16 n) _ := consumes_fixed _ (length_bigEndian 2 n.toNat)
  rwa [writeUInt16, bigEndianValue_bigEndian n.toNat_lt, UInt16.ofNat_toNat] at h

theorem consumes_uint32 (n : UInt32) : Consumes readUInt32 (writeUInt32 n) n := by
  have h : Consumes readUInt32 (writeUInt32 n) _ := consumes_fixed _ (length_bigEndian 4 n.toNat)
  rwa [writeUInt32, bigEndianValue_bigEndian n.toNat_lt, UInt32.ofNat_toNat] at h

theorem consumes_uint64 (n : UInt64) : Consumes readUInt64 (writeUInt64 n) n := by
  have h : Consumes readUInt64 (writeUInt64 n) _ := consumes_fixed _ (length_bigEndian 8 n.toNat)
  rwa [writeUInt64, bigEndianValue_bigEndian n.toNat_lt, UInt64.ofNat_toNat] at h

theorem consumes_string {text : Bytes} (h : text.length < 2 ^ 32) :
    Consumes readString (writeString text) text := by
  refine consumes_bind (consumes_uint32 _) ?_
  rw [UInt32.toNat_ofNat_of_lt' h]
  exact consumes_text text

theorem consumes_repeat {ι : Type} {body : α → Decoder α} {write : ι → Bytes}
    {update : α → ι → α} {items : List ι}
    (h : ∀ item ∈ items, ∀ acc, Consumes (body acc) (write item) (update acc item)) (acc : α) :
    Consumes (repeatRead body items.length acc) (items.flatMap write)
      (items.foldl update acc) := by
  induction items generalizing acc with
  | nil => exact consumes_pure acc
  | cons item items ih =>
      refine consumes_bind (h item (by simp) acc) ?_
      exact ih (fun item' hitem => h item' (by simp [hitem])) _

theorem consumes_counted {ι : Type} {body : α → Decoder α} {write : ι → Bytes}
    {update : α → ι → α} {items : List ι} (hlength : items.length < 2 ^ 32)
    (h : ∀ item ∈ items, ∀ acc, Consumes (body acc) (write item) (update acc item)) (acc : α) :
    Consumes (readCounted body acc) (writeCounted write items) (items.foldl update acc) := by
  refine consumes_bind (consumes_uint32 _) ?_
  rw [UInt32.toNat_ofNat_of_lt' hlength]
  exact consumes_repeat h acc

end Decoder

end ElioP2P.Library
