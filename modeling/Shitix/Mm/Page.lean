import Mathlib.Data.Nat.Notation

/-!
# Pages

The constants and roundings of `mm/page.rs`.  Masking the low twelve bits of an
address is written as a division followed by a multiplication.
-/

namespace Shitix

abbrev pageSize : ℕ := 4096

/-- `page_align`: round up to a page boundary. -/
def pageAlign (addr : ℕ) : ℕ := (addr + 4095) / 4096 * 4096

/-- `page_base`: round down to a page boundary. -/
def pageBase (addr : ℕ) : ℕ := addr / 4096 * 4096

/-- `map_nr`: the `mem_map` index of a physical address. -/
def mapNr (addr : ℕ) : ℕ := addr / 4096

theorem pageAlign_mod (addr : ℕ) : pageAlign addr % 4096 = 0 := by
  unfold pageAlign; omega

theorem le_pageAlign (addr : ℕ) : addr ≤ pageAlign addr := by
  unfold pageAlign; omega

theorem pageBase_mod (addr : ℕ) : pageBase addr % 4096 = 0 := by
  unfold pageBase; omega

theorem pageBase_eq (addr : ℕ) : pageBase addr = mapNr addr * 4096 := rfl

end Shitix
