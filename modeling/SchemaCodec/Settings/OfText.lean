import SchemaCodec.Settings.Basic

/-!
# Settings from a text

A library decodes the text. If it does not accept it, it gives the key path to what it rejects and a
reason, and both go into the message.
-/

namespace SchemaCodec.Settings

/-- What a library says about a text that it does not decode. -/
structure Rejection where
  /-- The key path to what is rejected. -/
  path : String
  reason : String
deriving DecidableEq

/-- The message about a rejected text. -/
def Rejection.message (r : Rejection) : String :=
  "at key path " ++ r.path ++ " → " ++ r.reason

/-- The settings in a text, by a library that decodes it. -/
def ofText (decode : String → Except Rejection Settings) (text : String) :
    Except String Settings :=
  (decode text).mapError Rejection.message

end SchemaCodec.Settings
