import KVStores.Redis.Object

/-!
# Commands as bytes

A command is sent, and logged, as the number of its arguments followed by each argument with its length in front.
-/

namespace KVStores.Redis.Protocol

def crlf : List UInt8 := [13, 10]

def encodeArg (arg : List UInt8) : List UInt8 := (36 :: ll2string arg.length) ++ crlf ++ (arg ++ crlf)

def encodeArgs (args : List (List UInt8)) : List UInt8 := args.flatMap encodeArg

def encodeCommand (args : List (List UInt8)) : List UInt8 := (42 :: ll2string args.length) ++ crlf ++ encodeArgs args

def encode (cmds : List (List (List UInt8))) : List UInt8 := cmds.flatMap encodeCommand

theorem encodeArgs_cons (arg : List UInt8) (args : List (List UInt8)) : encodeArgs (arg :: args) = encodeArg arg ++ encodeArgs args :=
  List.flatMap_cons

theorem encode_cons (args : List (List UInt8)) (cmds : List (List (List UInt8))) : encode (args :: cmds) = encodeCommand args ++ encode cmds :=
  List.flatMap_cons

theorem encode_append (cmds cmds' : List (List (List UInt8))) : encode (cmds ++ cmds') = encode cmds ++ encode cmds' := List.flatMap_append

theorem ll2string_noCr (n : ℕ) : (13 : UInt8) ∉ ll2string n := by
  exact fun h => absurd (isDigit_decimal _ 13 h) (by decide)

end KVStores.Redis.Protocol
