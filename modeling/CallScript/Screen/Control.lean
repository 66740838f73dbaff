import CallScript.Text.Bytes

/- Control sequences: bytes inside a text that tell a terminal what to do and take no column. -/
namespace CallScript

/-- Where a terminal stands in a control sequence. Device strings, commands and messages hold a
text of their own, which ends with a terminator. -/
inductive ControlState where
  | text
  | escape
  | escapeMiddle
  | sequence
  | sequenceParameters
  | sequenceMiddle
  | device
  | deviceParameters
  | deviceMiddle
  | deviceString
  | command
  | message
  deriving DecidableEq, Repr

namespace ControlState

def isQuiet (c : UInt8) : Bool := c ≤ 0x17 || c = 0x19 || (0x1c ≤ c && c ≤ 0x1f)

def anywhere (c : UInt8) : ControlState :=
  if c = 0x1b then .escape
  else if c = 0x90 then .device
  else if c = 0x98 || c = 0x9e || c = 0x9f then .message
  else if c = 0x9b then .sequence
  else if c = 0x9d then .command
  else .text

def part (self onMiddle onParameter onLast : ControlState) (c : UInt8) : ControlState :=
  if isQuiet c || c = 0x7f then self
  else if 0x20 ≤ c && c ≤ 0x2f then onMiddle
  else if 0x30 ≤ c && c ≤ 0x3f then onParameter
  else if 0x40 ≤ c && c ≤ 0x7e then onLast
  else anywhere c

def introduced (c : UInt8) : ControlState :=
  if c = ascii 'P' then .device
  else if c = ascii '[' then .sequence
  else if c = ascii ']' then .command
  else if c = ascii 'X' || c = ascii '^' || c = ascii '_' then .message
  else .text

def next (state : ControlState) (c : UInt8) : ControlState :=
  match state with
  | .text => anywhere c
  | .escape => part .escape .escapeMiddle .text (introduced c) c
  | .escapeMiddle => part .escapeMiddle .escapeMiddle .text .text c
  | .sequence => part .sequence .sequenceMiddle .sequenceParameters .text c
  | .sequenceParameters => part .sequenceParameters .sequenceMiddle .sequenceParameters .text c
  | .sequenceMiddle => part .sequenceMiddle .sequenceMiddle .text .text c
  | .device =>
    if c = 0x1b || (0x08 ≤ c && c ≤ 0x0d) then .deviceString
    else part .device .deviceMiddle .deviceParameters .deviceString c
  | .deviceParameters => part .deviceParameters .deviceMiddle .deviceParameters .deviceString c
  | .deviceMiddle => part .deviceMiddle .deviceMiddle .deviceString .deviceString c
  | .deviceString =>
    if c = 0x1b then .escape else if c = 0x9c || c = 0x18 || c = 0x1a then .text else .deviceString
  | .command =>
    if c = 0x1b then .escape
    else if c = 0x07 || c = 0x9c || c = 0x18 || c = 0x1a then .text
    else .command
  | .message => if isQuiet c || (0x20 ≤ c && c ≤ 0x7f) then .message else anywhere c

def readsCharacters (state : ControlState) : Bool := state ≠ .deviceString && state ≠ .command

end ControlState
end CallScript
