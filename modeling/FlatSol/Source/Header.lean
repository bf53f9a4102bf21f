import FlatSol.Text.Line
import FlatSol.Text.Search
import FlatSol.Text.Word

/-!
# Licence lines and pragma statements

A licence line is a line comment that gives the SPDX identifier; it is found in the text itself. A
pragma statement reaches from its keyword to the next semicolon; it is found in the masked text.
-/

namespace FlatSol

structure Pragma where
  name : Text
  statement : Text
deriving DecidableEq, Repr

namespace Source

/-- The mark of a licence line, behind the slashes. -/
def licenseMark : Text := "SPDX-License-Identifier:".toList

/-- Matches a whole licence line with its line feed, and gives the line without the white space
around it. -/
def licenseLine : Pattern Text := fun before cs => do
  if !startsLine before then none
  let afterSlashes ← ['/', '/'].isPrefixOf? (cs.dropWhile isMargin)
  let _ ← licenseMark.isPrefixOf? (afterSlashes.dropWhile isMargin)
  let line := cs.takeWhile (· ≠ '\n')
  let lineFeed := (cs.drop line.length).take 1
  some ⟨line.length + lineFeed.length, Text.trim line⟩

def pragmaKeyword : Text := ['p', 'r', 'a', 'g', 'm', 'a']

/-- Whether the character before a place leaves a word there free to start. -/
def startsWord (before : Option Char) : Bool :=
  match before with
  | none => true
  | some c => !isWord c

/-- Matches a pragma statement: the keyword as the start of a word, white space, a word, and all up
to the next semicolon. -/
def pragmaStatement : Pattern Pragma := fun before cs => do
  if !startsWord before then none
  let afterKeyword ← pragmaKeyword.isPrefixOf? cs
  if !(afterKeyword.head?.any isBlank) then none
  let atName := afterKeyword.dropWhile isBlank
  let name := atName.takeWhile isWord
  if name.isEmpty then none
  let beforeEnd := (atName.drop name.length).takeWhile (· ≠ ';')
  let behind ← [';'].isPrefixOf? ((atName.drop name.length).drop beforeEnd.length)
  let length := cs.length - behind.length
  some ⟨length, ⟨name, Text.onOneLine (cs.take length)⟩⟩

def versionName : Text := "solidity".toList

end Source

end FlatSol
