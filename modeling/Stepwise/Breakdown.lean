import Stepwise.Text.Quoted

/-!
# Breakdowns

Faults of the arithmetic and the containers underneath a program. The language has no error for them, so they pass
through a session without becoming its terminal error.
-/

namespace Stepwise

inductive Breakdown
  /-- an exact integer beyond the range of doubles was needed as a double -/
  | integerTooLarge
  /-- infinity was needed as an exact integer -/
  | infinityAsInteger
  /-- NaN was needed as an exact integer -/
  | nanAsInteger
  /-- a text was needed as an integer and is not one -/
  | notInteger (text : Text)
  /-- a text was needed as an integer and has more digits than are read -/
  | tooManyDigits (count : Nat)
  /-- an integer in JSON has more digits than are read, and JSON has no message for that -/
  | unexplainedJson
  /-- a text was needed as a number and is not one -/
  | notNumber (text : Text)
  /-- a value of the named type was needed as an integer -/
  | integerFrom (type : Text)
  /-- a value of the named type was needed as a number -/
  | numberFrom (type : Text)
  /-- an operator without arithmetic meaning -/
  | unknownOperator (op : Text)
  /-- an array grew while it was being sorted -/
  | sortInterference
  /-- a text cannot be written so many times -/
  | repeatSize
  /-- a history cannot be bounded by a negative number -/
  | negativeHistory
  /-- a history cannot be bounded by so large a number -/
  | historySize
  /-- a history cannot be bounded by what is no integer -/
  | historyType
  /-- a count of the named type cannot be compared with a limit of the other named type -/
  | unordered (relation countType limitType : Text)
  /-- data that no random source can be seeded with -/
  | seedType
  /-- a text was needed as bytes and has surrogates from `start` up to `stop`, the first of which is `first` -/
  | loneSurrogates (first : CodePoint) (start stop : Nat)
  /-- a value of the named type was needed as a number of repetitions -/
  | countFrom (type : Text)
  /-- there is no instruction at the index that is to be executed -/
  | noInstruction
  /-- the evaluation was given too little fuel -/
  | exhausted

def digitLimit : Nat := 4300

def Breakdown.message : Breakdown → Text
  | integerTooLarge => "int too large to convert to float".codes
  | infinityAsInteger => "cannot convert float infinity to integer".codes
  | nanAsInteger => "cannot convert float NaN to integer".codes
  | notInteger text => "invalid literal for int() with base 10: ".codes ++ text.shown.take 200
  | tooManyDigits count =>
    "Exceeds the limit (".codes ++ Text.ofNat digitLimit ++ " digits) for integer string conversion: value has ".codes ++
      Text.ofNat count ++ " digits; use sys.set_int_max_str_digits() to increase the limit".codes
  | unexplainedJson => "'ValueError' object has no attribute 'msg'".codes
  | notNumber text => "could not convert string to float: ".codes ++ text.shown
  | integerFrom type =>
    "int() argument must be a string, a bytes-like object or a real number, not '".codes ++ type ++ "'".codes
  | numberFrom type => "float() argument must be a string or a real number, not '".codes ++ type ++ "'".codes
  | unknownOperator op => "unknown operator ".codes ++ op
  | sortInterference => "list modified during sort".codes
  | repeatSize => "cannot fit 'int' into an index-sized integer".codes
  | negativeHistory => "maxlen must be non-negative".codes
  | historySize => "Python int too large to convert to C ssize_t".codes
  | historyType => "an integer is required".codes
  | unordered relation countType limitType =>
    "'".codes ++ relation ++ "' not supported between instances of '".codes ++ countType ++ "' and '".codes ++
      limitType ++ "'".codes
  | seedType => "The only supported seed types are: None,\nint, float, str, bytes, and bytearray.".codes
  | loneSurrogates first start stop =>
    "'utf-8' codec can't encode character".codes ++
      (if stop = start + 1 then " '\\u".codes ++ Text.hexDigits 4 first ++ "' in position ".codes ++ Text.ofNat start
        else "s in position ".codes ++ Text.ofNat start ++ "-".codes ++ Text.ofNat (stop - 1)) ++
      ": surrogates not allowed".codes
  | countFrom type => "'".codes ++ type ++ "' object cannot be interpreted as an integer".codes
  | noInstruction => "list index out of range".codes
  | exhausted => "evaluation ran out of fuel".codes

end Stepwise
