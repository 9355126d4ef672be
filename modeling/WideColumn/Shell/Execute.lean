import WideColumn.Command.Basic
import WideColumn.Shell.Outcome
import WideColumn.Table.Cursor

/-! # Carrying out commands -/
namespace WideColumn.Shell

variable {m : Type → Type} [Monad m] [Host m]

def countRuns : List String → Nat
  | [] => 0
  | [_] => 1
  | a :: b :: rest => (if a == b then 0 else 1) + countRuns (b :: rest)

/-- The listing of a scan. Rows are counted where the row changes. -/
def scanned (cells : List Cell) : Outcome :=
  .cells .rows (cells.map fun c => ⟨c.row, c.display⟩) (countRuns (cells.map (·.row)))

def gotten (cells : List Cell) : Outcome :=
  .cells .columns (cells.map fun c => ⟨c.column, c.content⟩) cells.length

def stateOutcome (table state : String) : StateChange → Outcome
  | .changed => .done
  | .unchanged => .warning ("Table '" ++ table ++ "' is already " ++ state)

/-- Carry out a command. Groups of a `put` and maps of an `alter` are done one after the other, and
a fault keeps those before it. -/
def execute (confirm : List String → m Bool) : Command → CatalogM m Outcome
  | .create table families => do
    let families ← families.mapM fun f => Schema.Family.ofProperties f.name f.properties
    Catalog.createTable table families
    return .created table
  | .list pattern => return .tables (← Catalog.ask (·.list pattern))
  | .disable table => return stateOutcome table "disabled" (← Catalog.disable table)
  | .enable table => return stateOutcome table "enabled" (← Catalog.enable table)
  | .isEnabled table => return .answer (← Catalog.ask (·.isEnabled table))
  | .isDisabled table => return .answer (← Catalog.ask (·.isDisabled table))
  | .alter table maps => return .altered (← maps.mapM (Catalog.alter table))
  | .drop table => do
    Catalog.dropTable table
    return .done
  | .dropAll pattern => return .dropped (← Catalog.dropAll pattern confirm)
  | .describe table => do
    let t ← Catalog.ask (·.table table)
    return .description t.describe t.families.length
  | .put table cells => do
    cells.forM fun w => discard <| Catalog.mutate table fun r t =>
      t.put r w.row w.column.family w.column.qualifier w.value
    return .done
  | .get table row column versions => do
    let t ← Catalog.ask (·.table table)
    return gotten (← t.getVersions row (column.map (·.family)) (column.bind (·.qualifier)) versions)
  | .scan table => do
    let t ← Catalog.ask (·.table table)
    return scanned (← t.scan).drain.1
  | .delete table row column => do
    Catalog.mutate_ table fun r t => t.delete r row column.family column.qualifier
    return .done
  | .deleteRow table row =>
    return .rowsDeleted (← Catalog.mutate table fun r t => t.deleteRow r row)
  | .count table => do
    let t ← Catalog.ask (·.table table)
    return .count (← t.count).toNat
  | .truncate table => do
    Catalog.truncate table
    return .truncated table
  | .help topic => return .help topic
  | .exit => return .exit
  | .unknown line => return .unknown line
  | .empty => return .empty

end WideColumn.Shell
