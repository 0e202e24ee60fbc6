import KnowledgeBase.Fact
import Std.Data.TreeMap

/-!
# Indexes

Buckets of fact ids under text keys.  A key without a bucket has the empty one.
-/

namespace KnowledgeBase

abbrev Index := Std.TreeMap String (List FactId)

namespace Index

def bucket (idx : Index) (key : String) : List FactId := idx.getD key []

/-- Appends an id to a bucket. -/
def push (idx : Index) (key : String) (id : FactId) : Index :=
  idx.insert key (idx.bucket key ++ [id])

/-- Drops every occurrence of an id from a bucket, and the bucket if nothing is left. -/
def drop (idx : Index) (key : String) (id : FactId) : Index :=
  let rest := (idx.bucket key).filter (· != id)
  if rest.isEmpty then idx.erase key else idx.insert key rest

end Index

end KnowledgeBase
