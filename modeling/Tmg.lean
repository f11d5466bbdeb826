import Tmg.Lib.Run
import Tmg.Lib.Outcome
import Tmg.Lib.LongBracket
import Tmg.LongString
import Tmg.Reference
import Tmg.Steps
import Tmg.InlineBlock
import Tmg.Order
import Tmg.Backslash
import Tmg.Toggle
import Tmg.TextLines
import Tmg.Expand
import Tmg.RenderFile
import Tmg.ChunkName
import Tmg.Context
import Tmg.Lib.Block
import Tmg.StrBuf
import Tmg.LibPath
import Tmg.FindLib
import Tmg.Escaping
import Tmg.Lua.Token
import Tmg.Statement
import Tmg.Lib.Machine
import Tmg.Lib.Shell
import Tmg.Lib.ShellWords
import Tmg.Lib.Quoting
import Tmg.Nob.WaitAll
import Tmg.Nob.CommandLine
import Tmg.Nob.Rebuild
import Tmg.Nob.Path
import Tmg.Nob.Append
import Tmg.Lib.Words
import Tmg.Nob.Dependencies
import Tmg.Lib.DirTree
import Tmg.Nob.ReadDir
import Tmg.Lib.Nesting
import Tmg.Latex.Markup
import Tmg.Latex.Total
import Tmg.Latex.Indent
import Tmg.Lib.Join
import Tmg.Lib.Strip
import Tmg.Latex.Children
import Tmg.Latex.Shape
import Tmg.Latex.Fragment
import Tmg.Latex.Build
import Tmg.Latex.Spellings
import Tmg.Latex.ControlWord
import Tmg.Latex.Grid
import Tmg.Latex.ReadBack
import Tmg.Latex.Items
import Tmg.Latex.OptionalArg
import Tmg.Latex.Tabular
import Tmg.Latex.Pieces
import Tmg.Latex.WellNested
import Tmg.Latex.Compile
import Tmg.Lib.Keyed
import Tmg.Latex.Options
import Tmg.Latex.SpecTable
import Tmg.Latex.Nested
import Tmg.Latex.Verbatim
import Tmg.Lib.Backtrack
import Tmg.Lib.Rearrange
import Tmg.Lib.BigEndian
import Tmg.Lua.Char
import Tmg.Lua.Pattern
import Tmg.Lua.Matches
import Tmg.Lua.StrLib
import Tmg.Lua.Gsub
import Tmg.Lua.Sort
import Tmg.Lua.StrCmp
import Tmg.Latex.LuaLib
import Tmg.Lua.IoLib
import Tmg.Latex.CompileLog
import Tmg.Latex.Output
import Tmg.Nob.LuaLib
import Tmg.Require
import Tmg.Lua.Lexer
import Tmg.Lua.LongRead
import Tmg.Lua.Stream
import Tmg.Lua.Kind
import Tmg.Tokens
import Tmg.Lib.Calls
import Tmg.Raylib
