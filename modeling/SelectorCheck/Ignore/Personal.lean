import SelectorCheck.Ignore.Lines
import SelectorCheck.Machine

/-
  The ignore file of a user.

  A user may keep one ignore file for all repositories. Settings files name it
  under `excludesfile`: the one that a variable gives, the user's own two, and the
  one for all users; the first that has a value decides. If none has, the file is
  `git/ignore` in the user's directory for settings.

  Settings files are not read by sections. A setting starts a line, its value is one
  word, which may be quoted, and nothing follows it on its line; the first such
  setting counts. Every `~` in the value stands for the home directory.
-/

namespace SelectorCheck

namespace Ignore.Personal

def isSpace (x : UInt8) : Bool := x == 0x20 || (0x09 ≤ x && x ≤ 0x0D)

def lineFeed : UInt8 := 0x0A

def quote : UInt8 := 0x22

def equals : UInt8 := 0x3D

def toSmall (x : UInt8) : UInt8 := if 0x41 ≤ x && x ≤ 0x5A then x + 0x20 else x

def dropSpace (bytes : List UInt8) : List UInt8 := bytes.dropWhile isSpace

/-- Whether nothing but space comes before a line end or the end. -/
def endsLine (bytes : List UInt8) : Bool :=
  (dropSpace bytes).isEmpty || (bytes.takeWhile isSpace).contains lineFeed

/-- Whether a value may end before the given bytes: nothing but a quote follows it
on its line. -/
def endsValue (bytes : List UInt8) : Bool :=
  endsLine bytes ||
    match dropSpace bytes with
    | x :: rest => x == quote && endsLine rest
    | [] => false

/-- The shortest value at the front. -/
def word? : List UInt8 → Option (List UInt8)
  | [] => none
  | x :: rest =>
    if isSpace x then none
    else if endsValue rest then some [x]
    else (word? rest).map (x :: ·)

/-- The value at the front, with or without a quote before it. -/
def value? (bytes : List UInt8) : Option (List UInt8) :=
  match dropSpace bytes with
  | [] => none
  | x :: rest => (if x = quote then word? (dropSpace rest) else none).or (word? (x :: rest))

def settingName : List UInt8 := "excludesfile".toUTF8.toList

/-- The value of the setting, if it is the first thing in the bytes. -/
def settingAt? (bytes : List UInt8) : Option (List UInt8) :=
  let bytes := dropSpace bytes
  if (bytes.take settingName.length).map toSmall = settingName then
    match dropSpace (bytes.drop settingName.length) with
    | x :: rest => if x = equals then value? rest else none
    | [] => none
  else none

/-- The bytes from the start of each line. -/
def fromLines : List UInt8 → List (List UInt8)
  | [] => []
  | x :: rest => if x = lineFeed then rest :: fromLines rest else fromLines rest

def setting? (content : ByteArray) : Option String :=
  ((content.toList :: fromLines content.toList).findSome? settingAt?).bind fun value =>
    String.fromUTF8? ⟨value.toArray⟩

def userVariable : String := "GIT_CONFIG_GLOBAL"

def systemVariable : String := "GIT_CONFIG_SYSTEM"

def settingsVariable : String := "XDG_CONFIG_HOME"

def homeVariable : String := "HOME"

/-- The variables that say where the ignore file of the user is. -/
def environmentNames : List String :=
  [userVariable, systemVariable, settingsVariable, homeVariable]

end Ignore.Personal

namespace Machine

open Ignore.Personal

def home? (m : Machine) : Option Path := (m.environment homeVariable).map Path.mk

def settingsDirectory? (m : Machine) : Option Path :=
  match m.environment settingsVariable with
  | some "" | none => m.home?.map (·.child ".config")
  | some directory => some ⟨directory⟩

/-- The settings files that may name the ignore file of the user, the preferred one
first. -/
def gitSettings (m : Machine) : List Path :=
  ((m.environment userVariable).map Path.mk).toList
    ++ (m.home?.map (·.child ".gitconfig")).toList
    ++ (m.settingsDirectory?.map (·.join ⟨"git/config"⟩)).toList
    ++ [⟨(m.environment systemVariable).getD "/etc/gitconfig"⟩]

/-- The path that a setting stands for. -/
def expandHome (m : Machine) (value : String) : Path :=
  match m.home? with
  | some home => ⟨value.replace "~" home.text⟩
  | none => ⟨value⟩

def personalFile? (m : Machine) : Option Path :=
  ((m.gitSettings.findSome? fun p => (m.read? p).bind setting?).map m.expandHome).or
    (m.settingsDirectory?.map (·.join ⟨"git/ignore"⟩))

def personalLines (m : Machine) : Ignore.Lines :=
  match m.personalFile?.bind m.read? with
  | some content => Ignore.ofBytes content
  | none => {}

end Machine

end SelectorCheck
