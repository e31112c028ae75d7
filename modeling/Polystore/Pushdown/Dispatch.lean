import Polystore.Pushdown.Document
import Polystore.Pushdown.File
import Polystore.Pushdown.Search
import Polystore.Pushdown.WideColumn

/-
  Polystore/Pushdown/Dispatch.lean
  ================================
  **The dialect of each backend.**
-/

namespace Polystore

def Backend.dialect : Backend → Dialect
  | document => Document.dialect
  | wideColumn => WideColumn.dialect
  | search => Search.dialect
  | file => File.dialect

/-- A dialect writes fragments for its own backend. -/
theorem Backend.dialect_backend (b : Backend) : b.dialect.support.backend = b := by
  cases b <;> rfl

end Polystore
