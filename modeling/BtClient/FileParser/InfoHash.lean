import BtClient.Bencode.Document
import BtClient.Lib.Splice

/-!
# The info hash (`file-parser/file-parser.c`)

The program compiles the bencode parser with `BENCODE_HASH_INFO_DICT` and
`compute_info_hash` for `BENCODE_GET_SHA1`. That function copies the range to
hash into an array of exactly its length, and then lets `EVP_DigestFinal_ex`
write the digest over that array: a range shorter than a digest is overrun.

SHA-1 is a parameter, as everywhere in this development.
-/

namespace BtClient

open CLib

/-- `SHA_DIGEST_LENGTH`. -/
def shaDigestLength : Nat := 20

/-- The loop of `compute_info_hash`: the bytes it passes to
`EVP_DigestUpdate`. -/
def infoHashInput (inBuf : List UInt8) (start stop : Nat) : Except Fault (List UInt8) :=
  copyOut inBuf (stop + 1 - start) start

/-- `compute_info_hash(in_buf, start, end)`. -/
def computeInfoHash (sha1 : List UInt8 → List UInt8) (inBuf : List UInt8) (start stop : Nat) :
    Except Fault (List UInt8) := do
  let buf ← infoHashInput inBuf start stop
  -- `EVP_DigestFinal_ex(ctx, buf, &outlen)`
  if buf.length < shaDigestLength then .error .outOfBounds
  else return sha1 buf

/-- The range from the first to the last byte of `b` is `b`. -/
theorem infoHashInput_range (before b after : List UInt8) (hb : b ≠ []) :
    infoHashInput (before ++ (b ++ after)) before.length (before.length + b.length - 1)
      = .ok b := by
  have hpos : 0 < b.length := List.length_pos_iff.mpr hb
  have hcount : before.length + b.length - 1 + 1 - before.length = b.length := by omega
  rw [infoHashInput, hcount, copyOut_eq_slice _ _ _ (by simp only [List.length_append]; omega),
    slice_middle rfl rfl rfl]

theorem computeInfoHash_hashesRange (sha1 : List UInt8 → List UInt8) :
    HashesRange (computeInfoHash sha1) sha1 where
  long before b after hlong := by
    have hb : b ≠ [] := List.ne_nil_of_length_pos (by omega)
    rw [computeInfoHash, infoHashInput_range before b after hb, ok_bind,
      if_neg (by rw [shaDigestLength]; omega)]
    rfl
  short before b after hb hshort := by
    refine ⟨.outOfBounds, ?_⟩
    rw [computeInfoHash, infoHashInput_range before b after hb, ok_bind,
      if_pos (by rw [shaDigestLength]; omega)]

/-! ## Decoding what was encoded -/

/-- From some fuel on, parsing the encoding of `v` returns the tree of `v`,
with no error recorded and the parser on the last token of `v`. -/
def Decodes (sha1 : List UInt8 → List UInt8) (input : Option Bool) (seeds : Nat → TableSeed)
    (v : Value) : Prop :=
  ∃ fuel₀, ∀ fuel, fuel₀ ≤ fuel → ∃ item p',
    parseBuffer (computeInfoHash sha1) fuel (startParser input (encode v ++ [0]) seeds)
      = .ok item p' ∧
    Denotes v item ∧ p'.errors = [] ∧ (tokens 0 v).getLast? = some p'.curToken

/-- **Decoding undoes encoding** exactly when every value under `info` is long
enough for `compute_info_hash`. -/
theorem decode_encode_iff (sha1 : List UInt8 → List UInt8) (input : Option Bool)
    (seeds : Nat → TableSeed) (v : Value) (hwf : v.wf = true) (hlong : v.longInts = true)
    (hlen : (encode v).length < 2 ^ 63) :
    Decodes sha1 input seeds v ↔ v.longInfos = true := by
  have hgoes := fun fuel => parseBuffer_goes (computeInfoHash_hashesRange sha1) v fuel input seeds
    hwf hlen []
  constructor
  · rintro ⟨fuel₀, h⟩
    obtain ⟨item, p', hrun, -⟩ := h fuel₀ (le_refl _)
    exact ((hgoes fuel₀).of_ok hrun).2.2.1
  · intro hinfos
    refine ⟨weight v, fun fuel hfuel => ?_⟩
    obtain ⟨item, p', hrun, hmoved, htree, -, hcur⟩ :=
      (hgoes fuel).returns ⟨Value.fits_of_longInts hlong, hinfos, hfuel⟩
    exact ⟨item, p', hrun, htree.denotes hlong, hmoved.errors, by rw [getLast?_tokens, hcur]⟩

/-- The value of `{"info": {"name": "btclient", "piece length": 16384},
"nodes": [-42, "i1e:le"]}`, with the digest of its `info`, in tables whose
`used` makes the first insert rehash. -/
theorem decode_encode_nested :
    Decodes (fun _ => [15, 8, 2, 180, 4, 72, 246, 107, 140, 142, 55, 4, 227, 151, 145, 84, 23, 229,
        229, 116]) none (fun _ => ⟨700, 5⟩)
      (.dict [
        ([105, 110, 102, 111], .dict [
          ([110, 97, 109, 101], .str [98, 116, 99, 108, 105, 101, 110, 116]),
          ([112, 105, 101, 99, 101, 32, 108, 101, 110, 103, 116, 104], .int 16384)]),
        ([110, 111, 100, 101, 115], .list [.int (-42), .str [105, 49, 101, 58, 108, 101]])]) :=
  (decode_encode_iff _ _ _ _ (by decide) (by decide) (by decide)).mpr (by decide)

/-- `d4:infodee`, the document whose `info` is the empty dictionary, is not
decoded: the digest overruns the two bytes of the array, and no run returns. -/
theorem empty_info_overrun :
    (Value.dict [(infoKey, .dict [])]).wf = true ∧
    (Value.dict [(infoKey, .dict [])]).longInts = true ∧
    encode (.dict [(infoKey, .dict [])]) = [100, 52, 58, 105, 110, 102, 111, 100, 101, 101] ∧
    ∀ (sha1 : List UInt8 → List UInt8) (input : Option Bool) (seeds : Nat → TableSeed),
      ¬ Decodes sha1 input seeds (.dict [(infoKey, .dict [])]) ∧
      ∀ fuel item p', parseBuffer (computeInfoHash sha1) fuel
        (startParser input (encode (.dict [(infoKey, .dict [])]) ++ [0]) seeds) ≠ .ok item p' := by
  refine ⟨by decide, by decide, by decide, fun sha1 input seeds => ?_⟩
  have hnever : ∀ fuel item p', parseBuffer (computeInfoHash sha1) fuel
      (startParser input (encode (.dict [(infoKey, .dict [])]) ++ [0]) seeds) ≠ .ok item p' := by
    intro fuel item p' hrun
    have hgoes := parseBuffer_goes (computeInfoHash_hashesRange sha1)
      (.dict [(infoKey, .dict [])]) fuel input seeds (by decide) (by decide) []
    exact absurd (hgoes.of_ok hrun).2.2.1 (by decide)
  refine ⟨?_, hnever⟩
  rintro ⟨fuel₀, h⟩
  obtain ⟨item, p', hrun, -⟩ := h fuel₀ (le_refl _)
  exact hnever fuel₀ item p' hrun

/-! ## What is hashed -/

/-- The call `(start, end)` covers the value of the `info` entry that stands at
that place of `doc`, and `compute_info_hash` hashes its encoding. -/
def ExactCall (doc : List UInt8) (entry : Nat × Value) (call : Nat × Nat) : Prop :=
  StandsIn doc entry ∧ call.1 = entry.1 ∧ call.2 + 1 = entry.1 + (encode entry.2).length ∧
    infoHashInput doc call.1 call.2 = .ok (encode entry.2)

theorem exactCall_infoCall {doc : List UInt8} {entry : Nat × Value} (h : StandsIn doc entry) :
    ExactCall doc entry (infoCall entry) := by
  obtain ⟨-, before, after, hdoc, hpos⟩ := id h
  have hlen := length_encode_pos entry.2
  refine ⟨h, rfl, by simp only [infoCall]; omega, ?_⟩
  rw [← List.append_assoc] at hdoc
  rw [← List.length_append] at hpos
  rw [hdoc, infoCall, hpos]
  exact infoHashInput_range _ _ _ (encode_ne_nil _)

/-- **The info hash covers the info dictionary.** In every run over the
encoding of a dictionary, also one that faults, the calls of `BENCODE_GET_SHA1`
are for the `info` entries in their order and cover their values exactly. A
run that returns has made all of them. -/
theorem info_hash_covers_info (sha1 : List UInt8 → List UInt8) (input : Option Bool)
    (seeds : Nat → TableSeed) (fuel : Nat) (es : List (List UInt8 × Value))
    (hwf : (Value.dict es).wf = true) (hlen : (encode (.dict es)).length < 2 ^ 63) :
    (∀ (i : Nat) (call : Nat × Nat), (stateOf (parseBuffer (computeInfoHash sha1) fuel
        (startParser input (encode (.dict es) ++ [0]) seeds))).hashed[i]? = some call →
      ∃ entry, (infoEntries 0 (.dict es))[i]? = some entry ∧
        ExactCall (encode (.dict es) ++ [0]) entry call) ∧
    (∀ item p', parseBuffer (computeInfoHash sha1) fuel
        (startParser input (encode (.dict es) ++ [0]) seeds) = .ok item p' →
      p'.hashed.length = (infoEntries 0 (.dict es)).length) ∧
    ((Value.dict es).fits = true → (Value.dict es).longInfos = true →
      weight (.dict es) ≤ fuel → ∃ item p', parseBuffer (computeInfoHash sha1) fuel
        (startParser input (encode (.dict es) ++ [0]) seeds) = .ok item p') := by
  have hgoes := parseBuffer_goes (computeInfoHash_hashesRange sha1) (.dict es) fuel input seeds
    hwf hlen []
  refine ⟨fun i call hcall => ?_, fun item p' hrun => ?_, fun hfits hinfos hfuel => ?_⟩
  · obtain ⟨hlt, hval⟩ := List.getElem?_eq_some_iff.mp hcall
    have hget := (List.prefix_iff_getElem?.mp hgoes.hashed_prefix) i hlt
    rw [hval] at hget
    have hget : ((infoEntries 0 (.dict es)).map infoCall)[i]? = some call := hget
    rw [List.getElem?_map, Option.map_eq_some_iff] at hget
    obtain ⟨entry, hentry, rfl⟩ := hget
    refine ⟨entry, hentry, exactCall_infoCall ?_⟩
    exact @infoEntries_stand (.dict es) [] [0] hwf entry (List.mem_of_getElem? hentry)
  · have hmoved := (hgoes.of_ok hrun).1
    rw [hmoved.hashed, List.length_append, List.length_map]
    exact Nat.zero_add _
  · obtain ⟨item, p', hrun, -⟩ := hgoes.returns ⟨hfits, hinfos, hfuel⟩
    exact ⟨item, p', hrun⟩

/-- The document `{"announce": "u", "info": {"a": {"e": ["i", "d1"], "l": -5},
"pieces": "ed1:e"}}`, with the digest of its `info`: one call, an exact one. -/
theorem info_hash_covers_nested : ∃ es, ∃ item p',
    parseBuffer (computeInfoHash fun _ => [97, 231, 151, 106, 209, 246, 99, 95, 43, 245, 40, 31,
        41, 8, 218, 80, 78, 153, 74, 159])
      60 (startParser none (encode (.dict es) ++ [0]) (fun _ => ⟨0, 5⟩)) = .ok item p' ∧
    p'.hashed.length = 1 ∧ ∃ call entry, p'.hashed[0]? = some call ∧
      ExactCall (encode (.dict es) ++ [0]) entry call := by
  obtain ⟨hexact, hall, hreturns⟩ := info_hash_covers_info
    (fun _ => [97, 231, 151, 106, 209, 246, 99, 95, 43, 245, 40, 31, 41, 8, 218, 80, 78, 153, 74,
      159])
    none (fun _ => ⟨0, 5⟩) 60
    [([97, 110, 110, 111, 117, 110, 99, 101], .str [117]),
      (infoKey, .dict [
        ([97], .dict [
          ([101], .list [.str [105], .str [100, 49]]),
          ([108], .int (-5))]),
        ([112, 105, 101, 99, 101, 115], .str [101, 100, 49, 58, 101])])] (by decide) (by decide)
  obtain ⟨item, p', hrun⟩ := hreturns (by decide) (by decide) (by decide)
  have hlength := hall item p' hrun
  have hlt : 0 < p'.hashed.length := by rw [hlength]; decide
  have hcall := List.getElem?_eq_getElem hlt
  rw [hrun] at hexact
  obtain ⟨entry, -, hentry⟩ := hexact 0 _ hcall
  exact ⟨_, item, p', hrun, hlength, _, entry, hcall, hentry⟩

end BtClient
