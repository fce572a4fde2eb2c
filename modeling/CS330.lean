import CS330.Lib.Network
import CS330.Queue.Rows
import CS330.Fs.Spec
import CS330.Fs.Layout
import CS330.Debug.Lifetime
import CS330.Debug.Handover
import CS330.Debug.Resume
import CS330.Os.Access
import CS330.Os.Bound
import CS330.Os.Descriptors
import CS330.Os.Placement
import CS330.Os.Offset
import CS330.Os.Seek
import CS330.Os.Create
import CS330.Os.Sharing
import CS330.Os.Delivery
import CS330.Umpire.Round
import CS330.Shell.Execute
import CS330.Shell.Collect
import CS330.Shell.Commands
import CS330.Umpire.Record
import CS330.Umpire.Match
import CS330.Umpire.Protocol
import CS330.User.Printf
import CS330.Debug.Transparent
