/-!
# Interfaces

The syntax trees that `rpcgen` builds from an interface file (`tools/rpcgen/rpc_types.h`).
-/

namespace Rastapopoulos.Rpc

/-- `enum TypeName`; a type that was read is never `NullType`. -/
inductive TypeName
  | void
  | int
  | string
  | long
  | blob
  deriving DecidableEq, Repr

/-- `enum Modifier`. -/
inductive Modifier
  | null
  | oneWay
  | out
  deriving DecidableEq, Repr

/-- `struct RPCType`. -/
structure RPCType where
  type : TypeName
  modifier : Modifier
  deriving DecidableEq, Repr

/-- `struct RPCArgument`. -/
structure RPCArgument where
  name : String
  type : RPCType
  deriving DecidableEq, Repr

/-- `struct RPCFunction`. -/
structure RPCFunction where
  name : String
  returnType : RPCType
  args : List RPCArgument
  deriving DecidableEq, Repr

/-- The generator stops: `panic`, `abort` or a failed assertion in `rpcgen` itself. -/
inductive GenFault
  | abort
  deriving DecidableEq, Repr

end Rastapopoulos.Rpc
