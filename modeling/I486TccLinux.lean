import I486TccLinux.Resumable.Script
import I486TccLinux.Resumable.Artifact
import I486TccLinux.Resumable.Plan
import I486TccLinux.Resumable.Separate
import I486TccLinux.Build.Config
import I486TccLinux.Build.Path
import I486TccLinux.Build.Blocks
import I486TccLinux.Build.Closure
import I486TccLinux.Build.Resume
import I486TccLinux.Download
import I486TccLinux.Build.RootImage
import I486TccLinux.Build.Floppies
import I486TccLinux.Process.Table
import I486TccLinux.Shutdown.Killall
import I486TccLinux.Shutdown.Freeze
import I486TccLinux.Shutdown.Options
import I486TccLinux.Shutdown.RcShutdown
import I486TccLinux.Shutdown.Spared
import I486TccLinux.Source.Lines
import I486TccLinux.Xauth.ParseDisplayName
import I486TccLinux.Framebuffer.Planar
import I486TccLinux.Numeric.Format
import I486TccLinux.Numeric.LowWord
import I486TccLinux.Fpu.X87
import I486TccLinux.Musl.Lrint
import I486TccLinux.Logic.Connective
import I486TccLinux.Logic.Tristate
import I486TccLinux.Kconfig.Expr
import I486TccLinux.Kconfig.Transform
import I486TccLinux.Kconfig.Equal
import I486TccLinux.Kconfig.Chain
import I486TccLinux.Kconfig.Join
import I486TccLinux.Kconfig.Dups
import I486TccLinux.Memo.Query
import I486TccLinux.Memo.Store
import I486TccLinux.Graph.DepthFirst
import I486TccLinux.Kconfig.Symbols
import I486TccLinux.Kconfig.CheckDeps
import I486TccLinux.Kconfig.Values
import I486TccLinux.Kconfig.ConfFile
import I486TccLinux.Kconfig.Session
import I486TccLinux.Kconfig.Run
import I486TccLinux.Kconfig.Shipped
import I486TccLinux.Kconfig.Guarantees
