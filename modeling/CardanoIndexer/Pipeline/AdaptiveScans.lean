import CardanoIndexer.Daw.Delete
import CardanoIndexer.Mapi.Scan
import CardanoIndexer.Polyphony.PersistentBuffer

/-!
# Scans of adaptive size across the services

If a single entry is too large the loops halve their size to zero, and find nothing.
-/

namespace CardanoIndexer.Pipeline

open Timbre Adaptive

def sendsUpTo (limit : ℕ) : Responses (Bytes × Bytes) where
  respond _ size _ := if size ≤ limit then .page else .tooLarge
  nothing_fits _ _ h := by simp at h

def sendsKeysUpTo (limit : ℕ) : Daw.Attempts where
  respond _ size _ := if size ≤ limit then .scan .page else .scan .tooLarge
  nothing_fits _ _ h := by simp at h

def oneEntry : SortedMap Bytes Bytes :=
  (∅ : SortedMap Bytes Bytes).put ((⟨1, 1⟩ : KeyEncoder).rollbackPrefix ++ [0]) [7]

def oneRange : KeyRange := (⟨1, 1⟩ : KeyEncoder).encodeRollbackMetadataRange none none

end CardanoIndexer.Pipeline
