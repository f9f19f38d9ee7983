import WptFyi.Lib.GoStrings
import WptFyi.Processor.WPTReport

/-!
# Batches of screenshots (`results-processor/wptscreenshot.py`)

`screenshots.db` has a data URI on each line. The images are uploaded in batches.

A line without the prefix of a PNG is passed over. What comes after the prefix is decoded as
Python's `base64` does when it is not asked to validate: characters outside the alphabet are
dropped, and an incomplete quantum is an error, which ends the whole upload. The lines are those of
a file that Python could decode as ASCII.

- `b64decode`: what is not a digit is skipped, and nothing is read after the padding;
- `process`: the batches that are handed to the workers;
- `flatten_process`, `length_of_mem_process`: every image is in a batch, and no batch is empty
  or too large.
-/

namespace WptFyi.Screenshots

open Lib Lib.GoStrings

/-- The bytes of a PNG. -/
abbrev Image := List UInt8

/-- `DATA_URI_PNG_PREFIX`. -/
def dataURIPrefix : String := "data:image/png;base64,"

/-- `MAXIMUM_BATCH_SIZE`. -/
def maximumBatchSize : Nat := 100

/-- The value of a digit of standard Base64. -/
def digit? (c : Char) : Option Nat :=
  let alphabet := "ABCDEFGHIJKLMNOPQRSTUVWXYZabcdefghijklmnopqrstuvwxyz0123456789+/".toList
  if c ∈ alphabet then some (alphabet.idxOf c) else none

/-- The rest of a decoding: the place in the quantum, the bits left of the last digit, and the
padding so far. -/
def decodeFrom (quadPos left pads : Nat) : List Char → Option Image
  | [] => if quadPos = 0 then some [] else none
  | c :: cs =>
    if c = '=' then
      if 2 ≤ quadPos then
        if 4 ≤ quadPos + (pads + 1) then some [] else decodeFrom quadPos left (pads + 1) cs
      else decodeFrom quadPos left pads cs
    else
      match digit? c, quadPos with
      | none, _ => decodeFrom quadPos left pads cs
      | some d, 0 => decodeFrom 1 d 0 cs
      | some d, 1 => (decodeFrom 2 (d % 16) 0 cs).map (UInt8.ofNat (left * 4 + d / 16) :: ·)
      | some d, 2 => (decodeFrom 3 (d % 4) 0 cs).map (UInt8.ofNat (left * 16 + d / 4) :: ·)
      | some d, _ => (decodeFrom 0 0 0 cs).map (UInt8.ofNat (left * 64 + d) :: ·)

/-- `base64.b64decode`. -/
def b64decode (s : String) : Option Image := decodeFrom 0 0 0 s.toList

/-- `str.rstrip`. -/
def rstrip (s : String) : String :=
  String.ofList (s.toList.reverse.dropWhile History.isWhitespace).reverse

/-- The image on a line, if there is one. -/
def imageOf (line : String) : Option Image :=
  let line := rstrip line
  if hasPrefix line dataURIPrefix then
    b64decode (String.ofList (line.toList.drop dataURIPrefix.length))
  else none

/-- The loop of `process`, with the batch so far. -/
def processLines (batch : List Image) : List String → List (List Image)
  | [] => if 0 < batch.length then [batch] else []
  | line :: lines =>
    match imageOf line with
    | none => processLines batch lines
    | some data =>
      let batch := batch ++ [data]
      if batch.length = maximumBatchSize then batch :: processLines [] lines
      else processLines batch lines

/-- `process`: the batches that are uploaded. -/
def process (lines : List String) : List (List Image) := processLines [] lines

/-- The batches, one after the other, are the images on the lines in their order. -/
theorem flatten_processLines (batch : List Image) (lines : List String) :
    (processLines batch lines).flatten = batch ++ lines.filterMap imageOf := by
  induction lines generalizing batch with
  | nil =>
    rw [processLines, List.filterMap_nil, List.append_nil]
    split_ifs with hbatch
    · exact List.flatten_singleton
    · exact (List.length_eq_zero_iff.mp (Nat.eq_zero_of_not_pos hbatch)).symm
  | cons line lines ih =>
    rw [processLines, List.filterMap_cons]
    cases imageOf line with
    | none => exact ih batch
    | some data =>
      dsimp only
      split_ifs
      · rw [List.flatten_cons, ih, List.nil_append, List.append_assoc, List.singleton_append]
      · rw [ih, List.append_assoc, List.singleton_append]

/-- Every image is in a batch, in the order of the lines. -/
theorem flatten_process (lines : List String) :
    (process lines).flatten = lines.filterMap imageOf := flatten_processLines [] lines

/-- A batch is handed over when it is full, and at the end if it is not empty. -/
theorem length_of_mem_processLines {batch : List Image} {lines : List String}
    (hbatch : batch.length < maximumBatchSize) {images : List Image}
    (h : images ∈ processLines batch lines) :
    0 < images.length ∧ images.length ≤ maximumBatchSize := by
  induction lines generalizing batch with
  | nil =>
    rw [processLines] at h
    split_ifs at h with hpos
    · rw [List.mem_singleton.mp h]
      exact ⟨hpos, hbatch.le⟩
    · exact absurd h List.not_mem_nil
  | cons line lines ih =>
    rw [processLines] at h
    cases hline : imageOf line with
    | none =>
      rw [hline] at h
      exact ih hbatch h
    | some data =>
      rw [hline] at h
      dsimp only at h
      -- a batch is sent as soon as it is full
      split_ifs at h with hfull
      · rcases List.mem_cons.mp h with rfl | h
        · exact ⟨by rw [hfull]; decide, hfull.le⟩
        · exact ih (by decide) h
      · refine ih ?_ h
        rw [List.length_append, List.length_singleton] at hfull ⊢
        omega

/-- No batch is empty or too large. -/
theorem length_of_mem_process {lines : List String} {images : List Image}
    (h : images ∈ process lines) : 0 < images.length ∧ images.length ≤ maximumBatchSize :=
  length_of_mem_processLines (by decide) h

end WptFyi.Screenshots
