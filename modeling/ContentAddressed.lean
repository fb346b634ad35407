import ContentAddressed.Command.Arguments
import ContentAddressed.Main
import ContentAddressed.Service.Route
import ContentAddressed.Store.Fetch
import ContentAddressed.Store.Open
import ContentAddressed.Proofs.Bytes
import ContentAddressed.Proofs.Result
import ContentAddressed.Proofs.Cursor
import ContentAddressed.Proofs.Link.Frame
import ContentAddressed.Proofs.Fingerprint
import ContentAddressed.Proofs.Link.Valid
import ContentAddressed.Proofs.Block.Frame
import ContentAddressed.Proofs.Block.RoundTrip
import ContentAddressed.Proofs.Link.Grammar
import ContentAddressed.Proofs.Block.Grammar
import ContentAddressed.Proofs.Text.Base64
import ContentAddressed.Proofs.Cipher.Aes
import ContentAddressed.Proofs.Cipher.Mode
import ContentAddressed.Proofs.Block.Sealed
import ContentAddressed.Proofs.Block.Convergent
import ContentAddressed.Proofs.Walk.Step
import ContentAddressed.Proofs.Walk.Ways
import ContentAddressed.Proofs.Walk.Asking
import ContentAddressed.Proofs.Walk.Limited
import ContentAddressed.Proofs.Walk.Distance
import ContentAddressed.Proofs.Walk.Recursive
import ContentAddressed.Proofs.Walk.Assemble
import ContentAddressed.Proofs.Medium.Keeping
import ContentAddressed.Proofs.Medium.Flaky
import ContentAddressed.Proofs.Store.Fetch
import ContentAddressed.Proofs.Store.Levels
import ContentAddressed.Proofs.Store.Keeping
import ContentAddressed.Proofs.Store.History
import ContentAddressed.Proofs.FileTree.Node
import ContentAddressed.Proofs.FileTree.Grouping
import ContentAddressed.Proofs.FileTree.Rounds
import ContentAddressed.Proofs.FileTree.Levels
import ContentAddressed.Proofs.FileTree.RoundTrip
import ContentAddressed.Proofs.Medium.Local
import ContentAddressed.Proofs.Store.Local
import ContentAddressed.Proofs.Walk.DepthLimit
import ContentAddressed.Proofs.Block.Obtained
import ContentAddressed.Proofs.Walk.Lockstep
import ContentAddressed.Proofs.Service.Form
import ContentAddressed.Proofs.Service.Answer
import ContentAddressed.Proofs.Http.Percent
import ContentAddressed.Proofs.Service.History
import ContentAddressed.Proofs.Service.Download
import ContentAddressed.Proofs.Store.Addressed
import ContentAddressed.Proofs.Files.Tree
import ContentAddressed.Proofs.Store.Shared
import ContentAddressed.Proofs.Command.Arguments
import ContentAddressed.Proofs.Command.Process
import ContentAddressed.Proofs.Command.Fetchable
import ContentAddressed.Proofs.Fingerprint.Spelling
import ContentAddressed.Proofs.Link.RoundTrip
import ContentAddressed.Proofs.Text.Lenient
import ContentAddressed.Proofs.Medium.Remote
import ContentAddressed.Proofs.Text.Blank
import ContentAddressed.Proofs.Service.Exchange
import ContentAddressed.Proofs.Medium.Retaining
import ContentAddressed.Proofs.Store.Waiting
import ContentAddressed.Proofs.Block.Rebuild
import ContentAddressed.Proofs.Walk.Reached
import ContentAddressed.Proofs.Walk.Assembly
import ContentAddressed.Proofs.Walk.Trace
import ContentAddressed.Proofs.Walk.Locked
import ContentAddressed.Proofs.Medium.Accepting
import ContentAddressed.Proofs.Store.Draining
import ContentAddressed.Proofs.Store.Writing
import ContentAddressed.Proofs.Medium.Answering
import ContentAddressed.Proofs.Store.Unseen
import ContentAddressed.Proofs.Store.Flushable
import ContentAddressed.Proofs.Store.Fallthrough
import ContentAddressed.Proofs.FileTree.Shape
import ContentAddressed.Proofs.Cipher.Inverse
import ContentAddressed.Proofs.Block.Size
import ContentAddressed.Proofs.Block.Remaining
import ContentAddressed.Proofs.Medium.Path
import ContentAddressed.Proofs.Fingerprint.Name
import ContentAddressed.Proofs.Walk.Once
import ContentAddressed.Proofs.Medium.Mirror
import ContentAddressed.Proofs.Service.Address
import ContentAddressed.Proofs.Command.ExitCode
import ContentAddressed.Proofs.Link.Delimiting
import ContentAddressed.Proofs.Link.Representation
