/-
# What the strategies hash

The scores of a ranking are hashes of tuples.  A tuple is written field by field, each behind its
length in four bytes, so a tuple is read back from its bytes in one way only, also when the number
of fields is not known (`encodeTuple_inj`).  The strategies hash tuples of three kinds, which share
the four fields of the request and differ in what follows: a backing, a tag and a backing, or a tag,
the class of a domain and its key.  So no two scores of one request are hashes of the same bytes,
unless they are scores of the same thing (`preimages_unambiguous`).

A collision of inputs would be worse than a collision of hashes: it happens for certain, and it can
be arranged by whoever chooses a name.  The classical mistake is a separator that may occur in a
field.  Here there is none: a field is preceded by its length in bytes, the lengths have a fixed
width, and `checkTuple` refuses fields that are longer than the width can say.  So the encoding is
one of `Lib.Wire`, and the injectivity is its theorem.
-/
import PveCpi.Storage.Strategies
import PveCpi.Lib.Wire

namespace Storage

/-! ## 1. Tuples

A field is a Go string, and its length is that of its UTF-8 bytes. -/

theorem length_bigEndian32 (n : Nat) : (bigEndian32 n).length = 4 := rfl

theorem bigEndian32_inj {m n : Nat} (hm : m < 2 ^ 32) (hn : n < 2 ^ 32)
    (h : bigEndian32 m = bigEndian32 n) : m = n := by
  have hbytes : ∀ {x y : Nat}, UInt8.ofNat x = UInt8.ofNat y → x % 2 ^ 8 = y % 2 ^ 8 := by
    intro x y hxy
    have htoNat := congrArg UInt8.toNat hxy
    rwa [UInt8.toNat_ofNat', UInt8.toNat_ofNat'] at htoNat
  simp only [bigEndian32, List.map_cons, List.map_nil, List.cons.injEq, and_true] at h
  obtain ⟨h3, h2, h1, h0⟩ := h
  have h3 := hbytes h3
  have h2 := hbytes h2
  have h1 := hbytes h1
  have h0 := hbytes h0
  omega

/-- What a byte array lists, read off from any place on. -/
theorem toList_loop (bytes : ByteArray) (n : Nat) :
    ∀ (i : Nat) (front : List UInt8), bytes.size - i = n →
      ByteArray.toList.loop bytes i front = front.reverse ++ bytes.data.toList.drop i := by
  obtain ⟨data⟩ := bytes
  induction n with
  | zero =>
    intro i front hn
    have hsize : data.toList.length ≤ i := Nat.sub_eq_zero_iff_le.mp hn
    have hstop : ¬ i < (ByteArray.mk data).size := Nat.not_lt.mpr hsize
    rw [ByteArray.toList.loop, if_neg hstop, List.drop_eq_nil_of_le hsize, List.append_nil]
  | succ n ih =>
    intro i front hn
    have hlt : i < data.toList.length := Nat.lt_of_sub_eq_succ hn
    have hgo : i < (ByteArray.mk data).size := hlt
    have hbyte : (ByteArray.mk data).get! i = data.toList[i] := by
      rw [ByteArray.get!, getElem!_pos data i hlt, Array.getElem_toList]
    have hnext : (ByteArray.mk data).size - (i + 1) = n := by omega
    rw [ByteArray.toList.loop, if_pos hgo, ih _ _ hnext, List.reverse_cons, hbyte,
      List.append_assoc, List.drop_eq_getElem_cons hlt]
    rfl

/-- The bytes of a text. -/
def utf8 (field : String) : List UInt8 := field.toUTF8.toList

theorem utf8_eq (field : String) : utf8 field = field.toByteArray.data.toList := by
  rw [utf8, String.toUTF8_eq_toByteArray, ByteArray.toList, toList_loop _ _ 0 [] rfl]
  rfl

theorem utf8_inj {a b : String} (h : utf8 a = utf8 b) : a = b := by
  rw [utf8_eq, utf8_eq] at h
  apply String.toByteArray_inj.mp
  exact ByteArray.ext (Array.toList_inj.mp h)

theorem length_utf8 (field : String) : (utf8 field).length = field.utf8ByteSize := by
  rw [utf8_eq]
  rfl

/-- The fields of a tuple that is written are short enough for their lengths. -/
theorem checkTuple_ok {size : Nat} {fields : List String} (h : checkTuple size fields = .ok ()) :
    ∀ field ∈ fields, (utf8 field).length < 2 ^ 32 := by
  induction fields generalizing size with
  | nil => simp
  | cons field fields ih =>
    rw [checkTuple, Lib.Check.bind_eq_ok] at h
    obtain ⟨_, hfield, h⟩ := h
    rw [Lib.Check.bind_eq_ok] at h
    obtain ⟨_, _, h⟩ := h
    rw [Lib.Check.refuse_eq_ok, decide_eq_false_iff_not] at hfield
    intro f hf
    rcases List.mem_cons.mp hf with rfl | hf
    · rw [length_utf8]
      omega
    · exact ih h f hf

theorem delimits_fields :
    Lib.Wire.Delimits (fun field => bigEndian32 (utf8 field).length ++ utf8 field)
    (fun field => (utf8 field).length < 2 ^ 32) :=
  Lib.Wire.delimits_sized length_bigEndian32 (by decide)
    (fun _ _ hm hn h => bigEndian32_inj hm hn h) fun _ _ h => utf8_inj h

theorem encodeTuple_ok {fields : List String} {encoded : List UInt8}
    (h : encodeTuple fields = .ok encoded) : (∀ field ∈ fields, (utf8 field).length < 2 ^ 32) ∧
      encoded = fields.flatMap fun field => bigEndian32 (utf8 field).length ++ utf8 field := by
  rw [encodeTuple, Lib.Check.bind_eq_ok] at h
  obtain ⟨_, hcheck, h⟩ := h
  cases h
  refine ⟨checkTuple_ok hcheck, ?_⟩
  simp only [length_utf8]
  rfl

/-- **A tuple is read back from its bytes.**  Its fields delimit themselves
(`Lib.Wire.Delimits.flatMap_inj`), and a field is known by its bytes. -/
theorem encodeTuple_inj {as bs : List String} {encoded : List UInt8}
    (ha : encodeTuple as = .ok encoded) (hb : encodeTuple bs = .ok encoded) : as = bs := by
  obtain ⟨hshort, hwritten⟩ := encodeTuple_ok ha
  obtain ⟨hshort', hwritten'⟩ := encodeTuple_ok hb
  exact delimits_fields.flatMap_inj hshort hshort' (hwritten.symm.trans hwritten')

/-! ## 2. The inputs of the hashes

`Preimage` has one constructor for each thing that a strategy hashes. -/

/-- What a score of a request is the score of. -/
inductive Preimage
  | rendezvous (backing : String)
  | member (backing : String)
  | domain (id : DomainIdentity)
  deriving DecidableEq

namespace Preimage

/-- The fields behind those of the request. -/
def suffix : Preimage → List String
  | .rendezvous backing => [backing]
  | .member backing => ["member", backing]
  | .domain id => ["domain", id.class, id.key]

/-- The bytes that are hashed. -/
def encoded (r : RequestSnapshot) (k : Preimage) : Except RankErr (List UInt8) := tuple r k.suffix

/-- The kinds differ in the number of fields, and the two kinds of domains in their class. -/
theorem suffix_inj {k k' : Preimage} (h : k.suffix = k'.suffix) : k = k' := by
  have hlen := congrArg List.length h
  cases k with
  | rendezvous backing =>
    cases k' with
    | rendezvous backing' =>
      cases h
      rfl
    | member backing' => simp [suffix] at hlen
    | domain id => simp [suffix] at hlen
  | member backing =>
    cases k' with
    | rendezvous backing' => simp [suffix] at hlen
    | member backing' =>
      cases h
      rfl
    | domain id => simp [suffix] at hlen
  | domain id =>
    cases k' with
    | rendezvous backing' => simp [suffix] at hlen
    | member backing' => simp [suffix] at hlen
    | domain id' =>
      simp only [suffix, List.cons.injEq, true_and, and_true] at h
      obtain ⟨hclass, hkey⟩ := h
      cases id with
      | declared key =>
        cases id' with
        | declared key' => exact congrArg _ (congrArg _ hkey)
        | backing key' => simp [DomainIdentity.class] at hclass
      | backing key =>
        cases id' with
        | declared key' => simp [DomainIdentity.class] at hclass
        | backing key' => exact congrArg _ (congrArg _ hkey)

end Preimage

/-- The three uses in `Rank`: a hash of a backing, and the draws of a domain and of a member. -/
theorem hashed_preimages (sc : Scoring) (r : RequestSnapshot) :
    (∀ backing, rendezvous sc r backing =
      ((Preimage.rendezvous backing).encoded r).map sc.sha256) ∧
    (∀ weight backing, weightedScore sc r weight ["member", backing] =
      weightedScore sc r weight (Preimage.member backing).suffix) ∧
    ∀ weight id, weightedScore sc r weight ["domain", id.class, id.key] =
      weightedScore sc r weight (Preimage.domain id).suffix := by
  refine ⟨fun backing => ?_, fun weight backing => rfl, fun weight id => rfl⟩
  rw [rendezvous, Preimage.encoded, Preimage.suffix]
  cases tuple r [backing] <;> rfl

/-- **Hash inputs are unambiguous.**  Equal bytes are equal tuples; equal tuples have the same
number of fields and the same fields behind those of the request, and these tell the kinds and their
members apart. -/
theorem preimages_unambiguous :
    (∀ as bs encoded, encodeTuple as = .ok encoded → encodeTuple bs = .ok encoded → as = bs) ∧
    ∀ (r : RequestSnapshot) (k k' : Preimage) encoded encoded',
      k.encoded r = .ok encoded → k'.encoded r = .ok encoded' → k ≠ k' → encoded ≠ encoded' := by
  refine ⟨fun as bs encoded ha hb => encodeTuple_inj ha hb, ?_⟩
  rintro r k k' encoded encoded' hk hk' hne rfl
  exact hne (Preimage.suffix_inj (List.append_cancel_left (encodeTuple_inj hk hk')))

/-- The same key as a declared domain and as an implicit one. -/
theorem preimages_unambiguous_sample :
    ∃ e e', (Preimage.domain (.declared "a")).encoded sampleRequest = .ok e ∧
      (Preimage.domain (.backing "a")).encoded sampleRequest = .ok e' ∧ e ≠ e' := by
  have hsome : ∀ id, ((Preimage.domain id).encoded sampleRequest).toOption.isSome = true →
      ∃ e, (Preimage.domain id).encoded sampleRequest = .ok e := by
    intro id h
    cases hok : (Preimage.domain id).encoded sampleRequest with
    | error err =>
      rw [hok] at h
      cases h
    | ok e => exact ⟨e, rfl⟩
  obtain ⟨e, he⟩ := hsome (.declared "a") (by decide)
  obtain ⟨e', he'⟩ := hsome (.backing "a") (by decide)
  exact ⟨e, e', he, he', preimages_unambiguous.2 sampleRequest _ _ e e' he he' (by decide)⟩

end Storage
