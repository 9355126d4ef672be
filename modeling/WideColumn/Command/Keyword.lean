/-! # The keywords that commands start with -/
namespace WideColumn

inductive Keyword where
  | create
  | list
  | disable
  | enable
  | isEnabled
  | isDisabled
  | alter
  | drop
  | dropAll
  | describe
  | put
  | get
  | scan
  | delete
  | deleteAll
  | count
  | truncate
  | help
  | exit
  deriving DecidableEq, Repr

namespace Keyword

/-- Every keyword, in the order in which a line is tried against them. -/
def all : List Keyword :=
  [create, list, disable, enable, isEnabled, isDisabled, alter, drop, dropAll, describe, put, get,
   scan, delete, deleteAll, count, truncate, help, exit]

def text : Keyword → String
  | create => "create"
  | list => "list"
  | disable => "disable"
  | enable => "enable"
  | isEnabled => "is_enabled"
  | isDisabled => "is_disabled"
  | alter => "alter"
  | drop => "drop"
  | dropAll => "drop_all"
  | describe => "describe"
  | put => "put"
  | get => "get"
  | scan => "scan"
  | delete => "delete"
  | deleteAll => "delete_all"
  | count => "count"
  | truncate => "truncate"
  | help => "help"
  | exit => "exit"

end Keyword

end WideColumn
