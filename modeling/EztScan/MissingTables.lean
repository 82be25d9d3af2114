import EztScan.Event

/-!
# Tables that queries miss

Queries of Easytrieve programs can name tables and procedures that nobody knows. Another service
makes objects for them: it is asked once for all programs, and if it stops, the log tells why.
-/

namespace EztScan.MissingTables

/-- What the service is asked for: where the queries are, and the types of the objects that it
makes. -/
structure Request where
  projectType : String := "Easyproject"
  queryCategory : String := "CAST_SQL_MetricableQuery"
  queryProperty : Nat := 138293
  schemaType : String := "Easy_MissingTable_Schema"
  tableType : String := "Easy_MissingTable_Table"
  procedureType : String := "Easy_MissingTable_Procedure"
  language : String := "Easytrieve"
deriving Repr, DecidableEq

/-- A message to the log, or a request to the service. -/
inductive Entry where
  | log (level : Level) (text : String)
  | request (r : Request)
deriving Repr, DecidableEq

/-- What is done, where `failure` is the reason that the service stops with, if it does. -/
def create (failure : Option String) : List Entry :=
  [.log .info " Start create_missing_objects for Easytrieve  ... ", .request {}]
    ++ (failure.map fun reason =>
      Entry.log .debug (" Internal exception with  create_missing_objects for Easytrieve (" ++
        reason ++ ")... ")).toList
    ++ [.log .info " End create_missing_objects for Easytrieve ... "]

end EztScan.MissingTables
