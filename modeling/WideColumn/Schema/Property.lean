import WideColumn.Text.Basic

/-! # The properties of a column family and their spellings -/
namespace WideColumn.Schema
open WideColumn.Text

inductive Property where
  | bloomFilter
  | inMemory
  | versions
  | keepDeletedCells
  | dataBlockEncoding
  | compression
  | ttl
  | minVersions
  | blockCache
  | blockSize
  | replicationScope
  deriving DecidableEq, Repr

namespace Property

/-- Every property, in the order in which a family is described. -/
def all : List Property :=
  [bloomFilter, inMemory, versions, keepDeletedCells, dataBlockEncoding, compression, ttl,
   minVersions, blockCache, blockSize, replicationScope]

def label : Property → String
  | bloomFilter => "BLOOMFILTER"
  | inMemory => "IN_MEMORY"
  | versions => "VERSIONS"
  | keepDeletedCells => "KEEP_DELETED_CELLS"
  | dataBlockEncoding => "DATA_BLOCK_ENCODING"
  | compression => "COMPRESSION"
  | ttl => "TTL"
  | minVersions => "MIN_VERSIONS"
  | blockCache => "BLOCKCACHE"
  | blockSize => "BLOCKSIZE"
  | replicationScope => "REPLICATION_SCOPE"

def field : Property → String
  | bloomFilter => "bloom_filter_type"
  | inMemory => "in_memory"
  | versions => "versions"
  | keepDeletedCells => "keep_deleted_cells"
  | dataBlockEncoding => "data_block_encoding"
  | compression => "compression"
  | ttl => "ttl"
  | minVersions => "min_versions"
  | blockCache => "block_cache"
  | blockSize => "block_size"
  | replicationScope => "replication_scope"

/-- A key names a property by either spelling, in any case. -/
def Names (key : String) (p : Property) : Prop :=
  sameWord p.label key = true ∨ sameWord p.field key = true

instance (key : String) (p : Property) : Decidable (p.Names key) :=
  inferInstanceAs (Decidable (_ ∨ _))

def find? (key : String) : Option Property := all.find? fun p => Names key p

end Property

/-- The key that stands for the family itself in a property map. -/
def nameKey : String := "NAME"

/-- The key that selects what an alteration does. -/
def methodKey : String := "METHOD"

end WideColumn.Schema
