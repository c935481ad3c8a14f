-- SUMMARY: What drivers report to the input layer.
import Mathlib.Tactic.Common

namespace Input

/-- The arguments of `input_report_abs`, of `input_report_key`, or of `input_event` for
`EV_KEY`, and a call of `input_sync`. -/
inductive Report where
  | abs (code value : Nat)
  | key (code value : Nat)
  | sync
  deriving DecidableEq

def absX : Nat := 0x00
def absY : Nat := 0x01
def absPressure : Nat := 0x18

def btnTouch : Nat := 0x14a

def keyEnter : Nat := 28
def keyS : Nat := 31
def keyL : Nat := 38
def keyLeftshift : Nat := 42

end Input
