import LeafStore.Error
import LeafStore.Select
/-!
Who may read and write which tables.
-/
namespace LeafStore

inductive WriteScope where
  | modify
  | delete
  deriving DecidableEq

def WriteScope.name : WriteScope → String
  | modify => "MODIFY"
  | delete => "DELETE"

structure Subject where
  token : String
  role : String
  deriving DecidableEq

structure Authorizer where
  read : Subject → TableName → Except AccessError Unit
  write : Subject → TableName → WriteScope → Except AccessError Unit

def Authorizer.allowAll : Authorizer where
  read _ _ := .ok ()
  write _ _ _ := .ok ()

end LeafStore
