import BtClient.Connection.Finish
import BtClient.FileParser.Created

/-!
# From a torrent file to the files it describes

Who publishes a content cuts it into pieces, hashes them and writes the hashes
into a torrent file. `parse_file` reads that file, connections fetch the
pieces, and what is on disk in the end is the content, cut at the boundaries of
the files. This is the purpose of the program from its one input to its output.
-/

namespace BtClient

open CLib

/-- The pieces of a content; the last one may be short. -/
def contentPieces (pieceLength : Nat) (content : List UInt8) : List (List UInt8) :=
  (List.range ((content.length + pieceLength - 1) / pieceLength)).map fun k =>
    slice content (pieceLength * k) pieceLength

/-- The description of a content: the hashes are those of its pieces, and the
sizes of the files add up to it. The bounds on the piece length are the ones the
block scheduler needs. -/
structure Description.Publishes (sha1 : List UInt8 → List UInt8) (d : Description)
    (content : List UInt8) : Prop where
  length : content.length = (d.requests.map Prod.fst).sum
  nonempty : content ≠ []
  pos : 0 < d.pieceLength
  multiple : peerRequestSize ∣ d.pieceLength
  small : d.pieceLength < 2 ^ 32
  count : content.length ≤ d.pieceLength * 2 ^ 32
  lastFile : (d.requests.map Prod.fst).getLast? ≠ some 0
  pieces : d.pieces = ((contentPieces d.pieceLength content).map sha1).flatten

section Pieces

variable {sha1 : List UInt8 → List UInt8} {d : Description} {content : List UInt8}

/-- As many pieces as begin inside the content. -/
theorem lt_contentPieces_iff {p : Nat} (hp : 0 < p) (content : List UInt8) (k : Nat) :
    k < (contentPieces p content).length ↔ p * k < content.length := by
  rw [contentPieces, List.length_map, List.length_range, Nat.lt_div_iff_mul_lt hp, Nat.mul_comm]
  omega

theorem getElem?_contentPieces {p k : Nat} (hk : k < (contentPieces p content).length) :
    (contentPieces p content)[k]? = some (slice content (p * k) p) := by
  have hrange : k < (content.length + p - 1) / p := by simpa [contentPieces] using hk
  rw [contentPieces, List.getElem?_map, List.getElem?_range hrange]
  rfl

/-- The sizes of the files are those of the description. -/
theorem Description.fileSizes_dlFiles (hd : d.Good) (infoHash : List UInt8) :
    (d.toMetainfo infoHash d.dlFiles).fileSizes = d.requests.map Prod.fst := by
  have hlong : ∀ request ∈ d.requests, request.1 < 2 ^ 63 := by
    have hwf := hd.layout
    cases hlayout : d.layout with
    | single length =>
      simp only [hlayout, Layout.wf, decide_eq_true_eq] at hwf
      simpa [Description.requests, hlayout] using hwf
    | multi files =>
      simp only [hlayout, Layout.wf, List.all_eq_true, FileDescription.wf, Bool.and_eq_true,
        decide_eq_true_eq] at hwf
      intro request hrequest
      simp only [Description.requests, hlayout] at hrequest
      obtain ⟨file, hfile, rfl⟩ := List.mem_map.mp hrequest
      exact (hwf file hfile).1
  show (d.dlFiles.map fun file => file.size.toNat) = d.requests.map Prod.fst
  rw [Description.dlFiles, List.map_map]
  exact List.map_congr_left fun request hrequest => toNat_ofNat_of_long (hlong request hrequest)

variable (hsha : ∀ bytes, (sha1 bytes).length = shaDigestLength)

include hsha

/-- One hash for each piece. -/
theorem Description.Publishes.numPieces (h : d.Publishes sha1 content) :
    d.pieces.length / shaDigestLength = (contentPieces d.pieceLength content).length := by
  have hlen : d.pieces.length = (contentPieces d.pieceLength content).length * shaDigestLength := by
    have hall : ∀ piece ∈ contentPieces d.pieceLength content,
        (List.length ∘ sha1) piece = shaDigestLength := fun piece _ => hsha piece
    rw [h.pieces, List.length_flatten, List.map_map, List.map_congr_left hall, List.map_const',
      List.sum_replicate_nat]
  rw [hlen, Nat.mul_div_cancel _ (by decide)]

theorem Description.Publishes.hash (h : d.Publishes sha1 content) {k : Nat}
    (hk : k < (contentPieces d.pieceLength content).length) :
    d.pieceHashes.getD k [] = sha1 (slice content (d.pieceLength * k) d.pieceLength) := by
  have hpiece : ((contentPieces d.pieceLength content).map sha1)[k]? =
      some (sha1 (slice content (d.pieceLength * k) d.pieceLength)) := by
    rw [List.getElem?_map, getElem?_contentPieces hk, Option.map_some]
  have hslice := slice_flatten (n := shaDigestLength) _ (fun part hpart => by
    obtain ⟨piece, -, rfl⟩ := List.mem_map.mp hpart
    exact hsha piece) hpiece
  rw [← h.pieces] at hslice
  rw [List.getD_eq_getElem?_getD, Description.pieceHashes, h.numPieces hsha, List.getElem?_map,
    List.getElem?_range hk, Option.map_some, Option.getD_some, hslice]

/-- **What `parse_file` reads is a torrent of the content.** -/
theorem Description.Publishes.isContent (h : d.Publishes sha1 content) (hd : d.Good)
    (infoHash : List UInt8) :
    (d.toMetainfo infoHash d.dlFiles).Regular ∧
      (d.toMetainfo infoHash d.dlFiles).IsContent sha1 content ∧
      1 ≤ (d.toMetainfo infoHash d.dlFiles).info.numPieces := by
  have hsizes := Description.fileSizes_dlFiles hd infoHash
  have hlen : (d.toMetainfo infoHash d.dlFiles).info.pieceLength.toNat = d.pieceLength :=
    toNat_ofNat_of_long hd.pieceLength
  have hnum : (d.toMetainfo infoHash d.dlFiles).info.numPieces =
      (contentPieces d.pieceLength content).length := h.numPieces hsha
  have htotal : (d.toMetainfo infoHash d.dlFiles).totalLength = content.length := by
    rw [Metainfo.totalLength, hsizes, h.length]
  refine ⟨⟨?_, ?_, ?_, ?_⟩, ⟨htotal.symm, ?_, ?_, ?_⟩, ?_⟩
  · rw [hlen]
    exact h.pos
  · rw [hlen]
    exact h.multiple
  · rw [hlen]
    exact h.small
  · rw [hsizes]
    exact h.lastFile
  · rw [hnum]
    by_contra hmany
    have hin := (lt_contentPieces_iff h.pos content (2 ^ 32)).mp (by omega)
    have hcount := h.count
    omega
  · intro k hk
    rw [hnum] at hk
    rw [hlen, htotal]
    exact (lt_contentPieces_iff h.pos content k).mp hk
  · intro k hk
    rw [hnum] at hk
    rw [hlen]
    exact h.hash hsha hk
  · rw [hnum]
    refine (lt_contentPieces_iff h.pos content 0).mpr ?_
    rw [Nat.mul_zero]
    exact List.length_pos_of_ne_nil h.nonempty

end Pieces

/-- SHA-1, on the piece and on the `info` of the torrent below. -/
def twoPartsSha1 (bytes : List UInt8) : List UInt8 :=
  if bytes.length = 10 then tenByteSha1 bytes
  else [128, 5, 139, 132, 154, 166, 10, 33, 83, 89, 109, 42, 203, 162, 39, 6, 17, 100, 117, 86]

/-- The files `a/b` and `a/c`, of four and six bytes. -/
def twoPartsDescription : Description where
  announce := [104, 116, 116, 112, 58, 47, 47, 116]
  announceList := none
  name := [97]
  pieceLength := 16384
  pieces := tenByteSha1 []
  layout := .multi [⟨4, [[98]]⟩, ⟨6, [[99]]⟩]

end BtClient
