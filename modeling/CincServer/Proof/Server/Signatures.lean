import CincServer.Proof.Decimal
import CincServer.Proof.Runes
import CincServer.Server.Auth
import Mathlib.Data.Nat.Digits.Lemmas

/-!
# Messages recovered from signatures
-/

namespace CincServer.Proof.Server
open CincServer.Server Go

section Recovery

variable {pub : PublicKey} {sig m block : GoString}

theorem unpad_eq_message :
    unpad block = .message m ↔ ∃ count, 8 ≤ count ∧
      block = 0 :: 1 :: (List.replicate count 0xFF ++ 0 :: m) := by
  constructor
  · intro unpads
    match block with
    | [] => cases unpads
    | [header] =>
      simp only [unpad] at unpads
      split_ifs at unpads
    | header :: kind :: rest =>
      simp only [unpad] at unpads
      split_ifs at unpads with zero one short
      split at unpads
      next after dropped =>
        cases unpads
        obtain rfl : header = 0 := by simpa using zero
        obtain rfl : kind = 1 := by simpa using one
        have filled : rest.takeWhile (· = 0xFF) = List.replicate (rest.takeWhile (· = 0xFF)).length 0xFF :=
          List.eq_replicate_of_mem fun b mem => by simpa using List.all_eq_true.mp List.all_takeWhile b mem
        refine ⟨(rest.takeWhile (· = 0xFF)).length, by omega, ?_⟩
        rw [← filled, ← dropped, List.takeWhile_append_dropWhile]
      next => cases unpads
  · rintro ⟨count, enough, rfl⟩
    have long : ¬ 2 + count < 10 := by omega
    simp [unpad, long]

theorem unpad_ne_outOfRange (long : 2 ≤ block.length) : unpad block ≠ .outOfRange := by
  match block with
  | [] | [_] => simp at long
  | header :: kind :: rest =>
    simp only [unpad]
    split_ifs
    all_goals try split
    all_goals simp

theorem length_intBytes_le {v : Nat} (below : v < pub.n) :
    (intBytes v).length ≤ modulusLength pub := by
  rw [intBytes, List.length_map, List.length_reverse, Nat.digits_length_le_iff (by norm_num)]
  calc v < pub.n := below
    _ < 2 ^ pub.n.size := Nat.lt_size_self _
    _ ≤ 2 ^ (8 * modulusLength pub) := Nat.pow_le_pow_right (by norm_num) (by unfold modulusLength; omega)
    _ = 256 ^ modulusLength pub := by rw [pow_mul]; norm_num

def Recovers (pub : PublicKey) (sig : GoString) : Prop :=
  rsaPublicDecrypt pub sig ≠ .outOfRange ∧
  ∀ m, rsaPublicDecrypt pub sig = .message m ↔
    sig ≠ [] ∧ sig.length ≤ modulusLength pub ∧ setBytes sig < pub.n ∧ ∃ count, 8 ≤ count ∧
      leftPad (modulusLength pub) (intBytes (setBytes sig ^ pub.e % pub.n)) =
        0 :: 1 :: (List.replicate count 0xFF ++ 0 :: m)

theorem recovers_of_large (large : 256 ≤ pub.n) : Recovers pub sig := by
  have fits : (intBytes (setBytes sig ^ pub.e % pub.n)).length ≤ modulusLength pub :=
    length_intBytes_le (Nat.mod_lt _ pub.n_pos)
  have two : 2 ≤ modulusLength pub := by
    have := Nat.size_le_size large
    have : Nat.size 256 = 9 := by decide
    unfold modulusLength
    omega
  have long : 2 ≤ (leftPad (modulusLength pub) (intBytes (setBytes sig ^ pub.e % pub.n))).length := by
    simp only [leftPad, List.length_append, List.length_replicate]
    omega
  unfold Recovers rsaPublicDecrypt
  split_ifs with length range
  · refine ⟨by simp, fun m => ⟨by simp, fun recovers => ?_⟩⟩
    rcases length with length | length
    · omega
    · exact absurd (List.length_eq_zero_iff.mp length) recovers.1
  · exact ⟨by simp, fun m => ⟨by simp, fun recovers => by omega⟩⟩
  · obtain ⟨short, nonempty⟩ := not_or.mp length
    have some : sig ≠ [] := fun empty => nonempty (by rw [empty]; rfl)
    simp only [gt_iff_lt, not_lt.mpr fits, if_false]
    refine ⟨unpad_ne_outOfRange long, fun m => unpad_eq_message.trans ?_⟩
    simp only [some, ne_eq, not_false_eq_true, true_and, not_lt.mp short, not_le.mp range]

theorem modulusLength_of_small (small : pub.n < 256) : modulusLength pub = 1 := by
  have : pub.n.size ≤ 8 := Nat.size_le.mpr small
  have : 0 < pub.n.size := Nat.size_pos.mpr pub.n_pos
  unfold modulusLength
  omega

theorem zero_reads_past (small : pub.n < 256) : rsaPublicDecrypt pub [0] = .outOfRange := by
  have zero : setBytes [0] = 0 := rfl
  have power : 0 ^ pub.e % pub.n = 0 := by rw [Nat.zero_pow pub.e_pos, Nat.zero_mod]
  have empty : intBytes 0 = [] := rfl
  simp [rsaPublicDecrypt, modulusLength_of_small small, zero, power, empty, pub.n_pos.ne', leftPad,
    unpad]

/-- Recovery is safe and exact for every signature just with a modulus of more than eight bits. -/
theorem rsaPublicDecrypt_exact_iff (pub : PublicKey) : (∀ sig, Recovers pub sig) ↔ 256 ≤ pub.n := by
  refine ⟨fun recovers => ?_, fun large _ => recovers_of_large large⟩
  by_contra small
  exact (recovers [0]).1 (zero_reads_past (Nat.lt_of_not_le small))

theorem small_modulus_read_past :
    ∃ pub : PublicKey, ∃ sig, rsaPublicDecrypt pub sig = .outOfRange :=
  ⟨⟨33, 3, by decide, by decide⟩, [0], by decide +kernel⟩

end Recovery

/-! ## Signatures travel in headers -/

open Proof.Decimal

variable {s : GoString}

def visible (c : UInt8) : Bool := c < 0x80 && !isSpace c.toNat

section Base64

open Base64

theorem char_spec (n : Nat) :
    digit (char (n % 64)) = some (n % 64) ∧ char (n % 64) ≠ padChar ∧ visible (char (n % 64)) := by
  have all : ∀ n < 64, digit (char n) = some n ∧ char n ≠ padChar ∧
      visible (char n) := by decide +kernel
  exact all _ (Nat.mod_lt _ (by norm_num))

theorem visible_encodeToString (s : GoString) : ∀ c ∈ encodeToString s, visible c := by
  have pad : visible padChar := by decide
  have char (n : Nat) : visible (char (n % 64)) := (char_spec n).2.2
  fun_induction encodeToString s with
  | case1 => simp
  | case2 | case3 => simp [quantum, char, pad]
  | case4 a b c rest ih => exact List.forall_mem_append.mpr ⟨by simp [quantum, char], ih⟩

theorem bytes_eq (a b c : UInt8) :
    bytes (a.toNat * 65536 + b.toNat * 256 + c.toNat) = [a, b, c] := by
  have small := a.toNat_lt
  have small' := b.toNat_lt
  have small'' := c.toNat_lt
  simp only [bytes, List.cons.injEq, ← UInt8.toNat_inj, UInt8.toNat_ofNat', and_true]
  omega

theorem decodeQuanta_encodeToString (s : GoString) : decodeQuanta (encodeToString s) = some s := by
  have digit (n : Nat) : digit (char (n % 64)) = some (n % 64) := (char_spec n).1
  have other (n : Nat) : char (n % 64) ≠ padChar := (char_spec n).2.1
  have small (a : UInt8) : a.toNat < 256 := a.toNat_lt
  fun_induction encodeToString s with
  | case1 => rfl
  | case2 a =>
    have value : a.toNat * 65536 / 262144 % 64 * 262144 + a.toNat * 65536 / 4096 % 64 * 4096 =
        a.toNat * 65536 := by
      have := small a
      omega
    simpa [quantum, decodeQuanta, digit, value] using congrArg (List.take 1) (bytes_eq a 0 0)
  | case3 a b =>
    have value (n : Nat) (full : n = a.toNat * 65536 + b.toNat * 256) :
        n / 262144 % 64 * 262144 + n / 4096 % 64 * 4096 + n / 64 % 64 * 64 = n := by
      have := small a
      have := small b
      omega
    simpa [quantum, decodeQuanta, digit, other, value] using congrArg (List.take 2) (bytes_eq a b 0)
  | case4 a b c rest ih =>
    have value (n : Nat) (full : n = a.toNat * 65536 + b.toNat * 256 + c.toNat) :
        n / 262144 % 64 * 262144 + n / 4096 % 64 * 4096 + n / 64 % 64 * 64 + n % 64 = n := by
      have := small a
      have := small b
      have := small c
      omega
    simp [quantum, decodeQuanta, digit, other, ih, value, bytes_eq]

theorem decodeString_encodeToString (s : GoString) : decodeString (encodeToString s) = some s := by
  have kept : (encodeToString s).filter (fun c => c ≠ 0x0A ∧ c ≠ 0x0D) = encodeToString s := by
    refine List.filter_eq_self.mpr fun c mem => ?_
    have seen := visible_encodeToString s c mem
    simp only [decide_eq_true_eq]
    constructor <;> rintro rfl <;> cases seen
  rw [decodeString, kept, decodeQuanta_encodeToString]

theorem encodeToString_ne_nil (filled : s ≠ []) : encodeToString s ≠ [] := by
  intro empty
  have decoded := decodeQuanta_encodeToString s
  rw [empty] at decoded
  exact filled (Option.some.inj decoded).symm

end Base64

theorem itoaLoop_eq {room n : Nat} (enough : n ≤ room) (out : GoString) :
    itoaLoop room n out = (Nat.digits 10 n).reverse.map digitByte ++ out := by
  induction room generalizing n out with
  | zero =>
    obtain rfl : n = 0 := by omega
    simp [itoaLoop]
  | succ room ih =>
    rw [itoaLoop]
    split_ifs with positive
    · rw [ih (by omega), Nat.digits_def' (by norm_num) positive]
      simp
    · obtain rfl : n = 0 := by omega
      simp

theorem itoa_eq (n : Nat) : itoa n = formatNat n := by
  unfold itoa formatNat
  split_ifs
  · rfl
  · rw [itoaLoop_eq le_rfl, List.append_nil]

theorem canonical_digits (digits : Digits s) (upper : Bool) : Header.canonical upper s = s := by
  induction s generalizing upper with
  | nil => rfl
  | cons b s ih =>
    obtain ⟨first, others⟩ := List.forall_mem_cons.mp digits
    have below : ¬ 0x61 ≤ b ∧ ¬ 0x41 ≤ b := by
      simp only [isDigit, Bool.and_eq_true, decide_eq_true_eq, UInt8.le_iff_toNat_le,
        UInt8.reduceToNat] at first ⊢
      omega
    rw [Header.canonical, ih others]
    simp [below]

theorem canonicalMIMEHeaderKey_authorization (n : Nat) :
    Header.canonicalMIMEHeaderKey (authorization ++ formatNat n) =
      authorization ++ formatNat n := by
  have digits : (formatNat n).all Header.validHeaderFieldByte :=
    List.all_eq_true.mpr fun b mem => by simp [Header.validHeaderFieldByte, digits_formatNat n b mem]
  have words : authorization.all Header.validHeaderFieldByte := by decide
  rw [Header.canonicalMIMEHeaderKey, List.all_append, words, digits, Bool.and_self, if_pos rfl]
  exact congrArg (authorization ++ ·) (canonical_digits (digits_formatNat n) true)

def numbered (h : Header) (n : Nat) : GoString := h.get (authorization ++ formatNat n)

theorem numbered_set (h : Header) (n k : Nat) (value : GoString) :
    numbered (h.set (authorization ++ itoa n) value) k = if n = k then value else numbered h k := by
  have same : formatNat n = formatNat k ↔ n = k := by
    refine ⟨fun same => ?_, congrArg formatNat⟩
    rw [← valueOf_formatNat n, same, valueOf_formatNat]
  rw [itoa_eq, numbered, numbered, Header.get, Header.get, Header.set,
    Std.ExtTreeMap.getElem?_insert]
  simp only [canonicalMIMEHeaderKey_authorization, Std.compare_eq_iff_eq,
    List.append_cancel_left_eq, same]
  split_ifs <;> rfl

theorem trimSpace_visible (seen : ∀ c ∈ s, visible c) : trimSpace s = s := by
  have plain (c : UInt8) (mem : c ∈ s) : c < 0x80 ∧ isSpace c.toNat = false := by
    simpa [visible] using seen c mem
  have valid : validString s := by
    clear seen
    induction s with
    | nil => rfl
    | cons c s ih =>
      obtain ⟨first, others⟩ := List.forall_mem_cons.mp plain
      rw [← List.singleton_append, validString_append (.one first.1)]
      exact ih others
  have bare : ∀ r ∈ runes s, isSpace r = false := by
    rw [runes_ascii (List.all_eq_true.mpr fun c mem => decide_eq_true (plain c mem).1)]
    exact List.forall_mem_map.mpr fun c mem => (plain c mem).2
  exact trimSpace_eq_self valid (fun r head => bare r (List.mem_of_mem_head? head))
    fun r last => bare r (List.mem_of_mem_getLast? last)

theorem numbered_setChunks_of_lt (fuel : Nat) {n k : Nat} (before : k < n) (encoded : GoString)
    (h : Header) :
    numbered (setChunks fuel n encoded h) k = numbered h k := by
  induction fuel generalizing n encoded h with
  | zero => rfl
  | succ fuel ih =>
    rw [setChunks]
    split_ifs
    · rfl
    · rw [ih (by omega), numbered_set, if_neg (by omega)]

/-- What the loop that sets the chunks leaves behind is what the loop that joins them reads. -/
theorem joinChunks_setChunks {fuel room n : Nat} {encoded : GoString} {h : Header}
    (seen : ∀ c ∈ encoded, visible c)
    (enough : encoded.length ≤ fuel) (more : encoded.length < room)
    (absent : ∀ k, n ≤ k → numbered h k = []) :
    joinChunks (setChunks fuel n encoded h) room n = some encoded := by
  induction fuel generalizing room n encoded h with
  | zero =>
    obtain rfl : encoded = [] := List.length_eq_zero_iff.mp (by omega)
    obtain ⟨room, rfl⟩ : ∃ k, room = k + 1 := ⟨room - 1, by omega⟩
    rw [joinChunks]
    exact if_pos (absent n le_rfl)
  | succ fuel ih =>
    obtain ⟨room, rfl⟩ : ∃ k, room = k + 1 := ⟨room - 1, by omega⟩
    by_cases done : encoded = []
    · rw [setChunks, if_pos done, joinChunks, done]
      exact if_pos (absent n le_rfl)
    · have positive := List.length_pos_iff.mpr done
      have here : (setChunks fuel (n + 1) (encoded.drop chunk) (h.set (authorization ++ itoa n) (encoded.take chunk))).get
          (authorization ++ formatNat n) = encoded.take chunk :=
        (numbered_setChunks_of_lt fuel (Nat.lt_succ_self n) _ _).trans (by rw [numbered_set, if_pos rfl])
      have rest := @ih room (n + 1) (encoded.drop chunk) (h.set (authorization ++ itoa n) (encoded.take chunk))
        (fun c mem => seen c (List.mem_of_mem_drop mem)) (by rw [List.length_drop, chunk]; omega)
        (by rw [List.length_drop, chunk]; omega) fun k later => by rw [numbered_set, if_neg (by omega), absent k (by omega)]
      have trimmed := trimSpace_visible fun c mem => seen c (List.mem_of_mem_take (i := chunk) mem)
      rw [setChunks, if_neg done, joinChunks]
      rw [here, rest, trimmed, if_neg (by simp [done, chunk]), Option.map_some, List.take_append_drop]

/-- Whatever its length, a signature is read back from the headers that carry it. -/
theorem joinSignature_setSignatureHeaders {sig : GoString} {h : Header} {fuel : Nat}
    (filled : sig ≠ [])
    (absent : ∀ key ∈ h, ¬ authorization <+: key)
    (enough : (Base64.encodeToString sig).length < fuel) :
    joinSignature fuel (setSignatureHeaders sig h) = some (.ok sig) := by
  have none (n : Nat) : numbered h n = [] := by
    have missing : authorization ++ formatNat n ∉ h := fun mem => absent _ mem (List.prefix_append _ _)
    rw [numbered, Header.get, canonicalMIMEHeaderKey_authorization,
      Std.ExtTreeMap.getElem?_eq_none missing]
    rfl
  have joined := joinChunks_setChunks (visible_encodeToString sig) le_rfl enough fun k (_ : 1 ≤ k) => none k
  rw [joinSignature, setSignatureHeaders, joined]
  simp [encodeToString_ne_nil filled, decodeString_encodeToString]

/-- A signature of 46 bytes takes two headers. -/
theorem joinSignature_two_headers : let sig : GoString := List.replicate 46 0xFB
    (setSignatureHeaders sig ∅).size = 2 ∧
      joinSignature 65 (setSignatureHeaders sig ∅) = some (.ok sig) := by
  have filled : List.replicate 46 (0xFB : UInt8) ≠ [] := by decide
  exact ⟨by decide +kernel, joinSignature_setSignatureHeaders filled (by simp) (by decide +kernel)⟩

/-! ## Grants of the file store -/

open CincServer.Go CincServer.Api Decimal

theorem hexDigit?_lowerHex {n : Nat} (small : n < 16) : hexDigit? (lowerHex n) = some n := by
  interval_cases n <;> decide

theorem lowerHex_inj {n m : Nat} (left : n < 16) (right : m < 16)
    (same : lowerHex n = lowerHex m) : n = m := by
  have read := hexDigit?_lowerHex left
  rw [same, hexDigit?_lowerHex right] at read
  exact (Option.some.inj read).symm

theorem hexEncode_injective : Function.Injective hexEncode := by
  intro s
  induction s with
  | nil =>
    rintro (_ | ⟨c, t⟩) same
    · rfl
    · cases same
  | cons b s ih =>
    rintro (_ | ⟨c, t⟩) same
    · cases same
    · simp only [hexEncode, List.flatMap_cons, List.cons_append, List.nil_append,
        List.cons.injEq] at same
      obtain ⟨high, low, rest⟩ := same
      have left := b.toNat_lt
      have right := c.toNat_lt
      have high := lowerHex_inj (by omega) (by omega) high
      have low := lowerHex_inj (by omega) (by omega) low
      rw [UInt8.toNat_inj.mp (show b.toNat = c.toNat by omega), ih rest]

theorem hexEncode_ne_nil {s : GoString} (more : s ≠ []) : hexEncode s ≠ [] :=
  fun none => more (hexEncode_injective none)

theorem zero_not_mem_formatInt (i : Int) : 0 ∉ formatInt i := by
  have digits : 0 ∉ formatNat i.natAbs := fun mem => nomatch digits_formatNat _ _ mem
  unfold formatInt
  split
  · simpa using digits
  · exact digits

theorem zero_not_mem_of_parseInt {s : GoString} {n : Int} (read : parseInt s = some n) : 0 ∉ s :=
  fun mem => nomatch byte_of_parseInt read _ mem

theorem zero_not_mem_opName (op : FileStoreOp) : 0 ∉ opName op := by
  cases op <;> decide

section Fields

variable {α : Type} {x : α} {a a' b b' : List α}

theorem cut_at_first (left : x ∉ a) (right : x ∉ a') (same : a ++ x :: b = a' ++ x :: b') :
    a = a' ∧ b = b' := by
  rcases List.append_eq_append_iff.mp same with ⟨more, rfl, rest⟩ | ⟨more, rfl, rest⟩
  · cases more with
    | nil => simpa using rest
    | cons y more => simp_all
  · cases more with
    | nil => simpa using rest.symm
    | cons y more => simp_all

theorem cut_at_last (left : x ∉ b) (right : x ∉ b') (same : a ++ x :: b = a' ++ x :: b') :
    a = a' ∧ b = b' := by
  have reversed := congrArg List.reverse same
  simp only [List.reverse_append, List.reverse_cons, List.append_assoc,
    List.singleton_append] at reversed
  obtain ⟨last, first⟩ := cut_at_first (by simpa using left) (by simpa using right) reversed
  exact ⟨List.reverse_injective first, List.reverse_injective last⟩

end Fields

theorem macInput_inj {org checksum op exp org' checksum' op' exp' : GoString} (org_plain : 0 ∉ org)
    (org_plain' : 0 ∉ org')
    (op_plain : 0 ∉ op) (op_plain' : 0 ∉ op') (exp_plain : 0 ∉ exp) (exp_plain' : 0 ∉ exp')
    (same : macInput org checksum op exp = macInput org' checksum' op' exp') :
    org = org' ∧ checksum = checksum' ∧ op = op' ∧ exp = exp' := by
  simp only [macInput, List.flatMap_cons, List.flatMap_nil, List.append_assoc, List.cons_append,
    List.nil_append] at same
  obtain ⟨sameOrg, same⟩ := cut_at_first org_plain org_plain' same
  have ends : (checksum ++ 0 :: op) ++ 0 :: exp ++ [0] =
      (checksum' ++ 0 :: op') ++ 0 :: exp' ++ [0] := by simpa using same
  obtain ⟨same, sameExp⟩ := cut_at_last exp_plain exp_plain' (List.append_cancel_right ends)
  obtain ⟨sameChecksum, sameOp⟩ := cut_at_last op_plain op_plain' same
  exact ⟨sameOrg, sameChecksum, sameOp, sameExp⟩

variable {mac : Mac} {key org checksum : GoString} {op : FileStoreOp} {q : Values} {now : Time}

theorem verifyFileStore_eq_none : verifyFileStore mac key org checksum op q now = none ↔
      key ≠ [] ∧ q.get (lit "sig") ≠ [] ∧ ∃ exp, parseInt (q.get (lit "exp")) = some exp ∧
        q.get (lit "sig") = fileStoreMAC mac key org checksum (opName op) (q.get (lit "exp")) ∧
        q.get (lit "op") = opName op ∧ now.after (.ofUnix (Int64.ofInt exp)) = false := by
  by_cases keyed : key = []
  · simp [verifyFileStore, keyed]
  rw [verifyFileStore, if_neg keyed]
  by_cases signed : q.get (lit "sig") = []
  · simp [signed]
  dsimp only
  rw [if_neg signed]
  cases parseInt (q.get (lit "exp")) with
  | none => simp
  | some exp =>
    by_cases sameOp : q.get (lit "op") = opName op
    · rw [sameOp]
      by_cases valid : q.get (lit "sig") = fileStoreMAC mac key org checksum (opName op) (q.get (lit "exp"))
      · simp [keyed, signed, ← valid]
      · simp [valid]
    · by_cases valid : q.get (lit "sig") = fileStoreMAC mac key org checksum (q.get (lit "op")) (q.get (lit "exp"))
      · simp [sameOp, ← valid]
      · simp [sameOp, valid]

theorem ofUnix_unix (t : Time) : Time.ofUnix t.unix = ⟨t.sec, 0⟩ := by
  rw [Time.ofUnix, Time.unix, Int64.sub_add_cancel]

theorem get_set (q : Values) (key value name : GoString) :
    (q.set key value).get name = if key = name then value else q.get name := by
  unfold Values.get Values.set
  rw [Std.ExtTreeMap.getElem?_insert]
  split_ifs <;> simp_all

structure Grant where
  org : GoString
  checksum : GoString
  op : FileStoreOp
  exp : Time

namespace Grant

def expStr (g : Grant) : GoString := formatInt g.exp.unix.toInt

def sig (mac : Mac) (key : GoString) (g : Grant) : GoString :=
  fileStoreMAC mac key g.org g.checksum (opName g.op) g.expStr

def values (mac : Mac) (key : GoString) (g : Grant) : Values :=
  grantValues mac key g.org g.checksum g.op g.exp

variable {g : Grant}

theorem get_values (mac : Mac) (key : GoString) (g : Grant) :
    (g.values mac key).get (lit "op") = opName g.op ∧ (g.values mac key).get (lit "exp") = g.expStr ∧
      (g.values mac key).get (lit "sig") = g.sig mac key := by
  simp only [values, grantValues, get_set]
  exact ⟨rfl, rfl, rfl⟩

def CarriedBy (mac : Mac) (key : GoString) (g : Grant) (q : Values) : Prop :=
  ∀ name ∈ [lit "op", lit "exp", lit "sig"], q.get name = (g.values mac key).get name

theorem carriedBy_iff : g.CarriedBy mac key q ↔
      q.get (lit "op") = opName g.op ∧ q.get (lit "exp") = g.expStr ∧ q.get (lit "sig") = g.sig mac key := by
  obtain ⟨op, exp, sig⟩ := get_values mac key g
  simp only [CarriedBy, List.forall_mem_cons, op, exp, sig]
  simp

theorem parseInt_expStr (g : Grant) : parseInt g.expStr = some g.exp.unix.toInt :=
  parseInt_formatInt (Int64.le_toInt _) (Int64.toInt_lt _)

theorem sig_ne_nil : g.sig mac key ≠ [] := hexEncode_ne_nil (mac.sum_ne_nil _ _)

theorem fields_of_sig {exp : GoString} (org_plain : 0 ∉ org) (issued_plain : 0 ∉ g.org)
    (exp_plain : 0 ∉ exp)
    (same : fileStoreMAC mac key org checksum (opName op) exp = g.sig mac key) :
    org = g.org ∧ checksum = g.checksum ∧ opName op = opName g.op ∧ exp = g.expStr :=
  macInput_inj org_plain issued_plain (zero_not_mem_opName op) (zero_not_mem_opName g.op) exp_plain
    (zero_not_mem_formatInt _) (mac.injective key (hexEncode_injective same))

end Grant

theorem opName_injective : Function.Injective opName := by
  rintro (_ | _) (_ | _) same
  · rfl
  · exact absurd same (by decide)
  · exact absurd same (by decide)
  · rfl

/-- A signature that is a MAC under the key is one the server has issued. -/
def Unforged (mac : Mac) (key : GoString) (issued : List Grant) (sig : GoString) : Prop :=
  (∃ input, sig = hexEncode (mac.sum key input)) → ∃ g ∈ issued, sig = (g.values mac key).get (lit "sig")

/-- The middleware lets through just the requests that carry a grant for what they do, until it expires. -/
theorem grants_authorize_exactly (keyed : key ≠ []) {issued : List Grant}
    (orgs : ∀ g ∈ issued, 0 ∉ g.org)
    (plain : 0 ∉ org) (method : Method) (unforged : Unforged mac key issued (q.get (lit "sig"))) :
    verifyFileStore mac key org checksum (fileStoreOp method) q now = none ↔
      ∃ g ∈ issued, g.org = org ∧ g.checksum = checksum ∧ g.op = fileStoreOp method ∧ g.CarriedBy mac key q ∧
        now.after ⟨g.exp.sec, 0⟩ = false := by
  rw [verifyFileStore_eq_none]
  constructor
  · rintro ⟨-, -, exp, parsed, signed, sameOp, current⟩
    obtain ⟨g, mem, sig⟩ := unforged ⟨_, signed⟩
    rw [(g.get_values mac key).2.2] at sig
    have exp_plain := zero_not_mem_of_parseInt parsed
    obtain ⟨sameOrg, sameChecksum, named, sameExp⟩ :=
      Grant.fields_of_sig plain (orgs g mem) exp_plain (signed.symm.trans sig)
    rw [sameExp, g.parseInt_expStr] at parsed
    obtain rfl := Option.some.inj parsed
    rw [Int64.ofInt_toInt, ofUnix_unix] at current
    exact ⟨g, mem, sameOrg.symm, sameChecksum.symm, opName_injective named.symm,
      Grant.carriedBy_iff.mpr ⟨sameOp.trans named, sameExp, sig⟩, current⟩
  · rintro ⟨g, mem, rfl, rfl, wanted, carried, current⟩
    obtain ⟨sameOp, sameExp, sig⟩ := Grant.carriedBy_iff.mp carried
    refine ⟨keyed, sig ▸ Grant.sig_ne_nil, g.exp.unix.toInt,
      sameExp ▸ g.parseInt_expStr, ?_, ?_, ?_⟩
    · rw [sig, sameExp, ← wanted]
      rfl
    · rw [sameOp, wanted]
    · rw [Int64.ofInt_toInt, ofUnix_unix, current]

def tagged : Mac where
  sum _ input := 1 :: input
  injective _ _ _ same := (List.cons.inj same).2
  sum_ne_nil _ _ := nofun

def download : Grant := ⟨lit "acme", [0x61, 0, 0x62], .get, .ofUnix 1700000000⟩

theorem download_authorized :
    verifyFileStore tagged (lit "key") (lit "acme") [0x61, 0, 0x62] (fileStoreOp .get) (download.values tagged (lit "key"))
      (.ofUnix 1700000000) = none := by
  have orgs : ∀ g ∈ [download], 0 ∉ g.org := by decide
  have unforged : Unforged tagged (lit "key") [download] ((download.values tagged (lit "key")).get (lit "sig")) :=
    fun _ => ⟨download, List.mem_singleton_self _, rfl⟩
  refine (grants_authorize_exactly (by decide) orgs (by decide) .get unforged).mpr ?_
  exact ⟨download, List.mem_singleton_self _, rfl, rfl, rfl, fun _ _ => rfl, by decide⟩

end CincServer.Proof.Server
